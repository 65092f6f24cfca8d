import LuaGloss.Proofs.Item.Graph
import LuaGloss.Proofs.Syntax.Congruence
import LuaGloss.Proofs.Syntax.Reading

/-!
# What the grammar sees of its tokens

Two runs of the grammar are compared, over tokens that are alike.  A view says
what tokens, values, errors and nodes count as alike, and runs on like tokens
are then alike as a whole: they yield like nodes, they succeed or fail together,
and they leave like tokens.

The view that is used here forgets the source texts.  Runs over tokens of the
same kinds, values and positions yield the same outline up to the source texts
in it, and they fail together, at the same place and for the same reason.  An
error quotes the token at which it was found as it is written, so that the
quotations agree only if the tokens are the same; both statements are proved
together, the second under a proposition `same` that says so.
-/

namespace LuaGloss

/-- What counts as alike in two runs. -/
structure Parser.View extends Parser.Basis where
  chunk : Chunk → Chunk → Prop
  nodes : List Node → List Node → Prop
  chunk_finish {k k' : Chunk} : chunk k k' → k.finish = k'.finish
  value_span {k k' : Chunk} (shape : ValueShape) (start last : Pos) : chunk k k' →
    value ((Value.ofToken shape k.source start).extend last)
      ((Value.ofToken shape k'.source start).extend last)
  error_at {k k' : Chunk} {t t' : Option Token} (fault : SyntaxFault) :
    chunk k k' → Option.Rel token t t' →
    error (Parser.errorAt k t fault) (Parser.errorAt k' t' fault)
  nodes_refl (xs : List Node) : nodes xs xs
  nodes_append {xs xs' ys ys' : List Node} : nodes xs xs' → nodes ys ys' →
    nodes (xs ++ ys) (xs' ++ ys')
  nodes_frame {f : List Node → Node} {xs xs' : List Node} : Node.IsFrame f →
    nodes xs xs' → nodes [f xs] [f xs']
  nodes_entry {ident : Ident} {index index' : Value} {xs xs' : List Node}
    {init init' : Option Value} :
    value index index' → nodes xs xs' → Option.Rel value init init' →
      nodes [.entry ⟨ident, index⟩ xs init] [.entry ⟨ident, index'⟩ xs' init']
  nodes_locals {names : List Ident} {xs xs' : List Node}
    {inits inits' : Option (List Value)} :
    nodes xs xs' → Option.Rel (List.Forall₂ value) inits inits' →
      nodes [.locals names xs inits] [.locals names xs' inits']
  nodes_assign {ss ss' : List Suffixed} {xs xs' : List Node}
    {inits inits' : Option (List Value)} :
    List.Forall₂ (Suffixed.Rel value) ss ss' → nodes xs xs' →
      Option.Rel (List.Forall₂ value) inits inits' →
      nodes [.assign (ss.map (·.target)) xs inits]
        [.assign (ss'.map (·.target)) xs' inits']
  nodes_function {head : FunctionHead} {xs xs' : List Node} {last : Option Pos} :
    nodes xs xs' → nodes [.function head xs last] [.function head xs' last]

/-! ## The judgement -/

/-- Cursors after like tokens with like tokens left. -/
structure Cursor.Alike (V : Parser.View) (c : Cursor n) (c' : Cursor m) :
    Prop where
  rest : List.Forall₂ V.token c.rest c'.rest
  last : c.last = c'.last

/-- Outcomes with like nodes, which both are values that `R` relates or both
like errors. -/
inductive Outcome.Alike (V : Parser.View) (R : α → α → Prop) :
    Outcome n α → Outcome m α → Prop where
  | ok {nodes nodes' : List Node} {a a' : α} {c : Cursor n} {c' : Cursor m}
      (hnodes : V.nodes nodes nodes') (ha : R a a') (hc : c.Alike V c') :
      Alike V R ⟨nodes, .ok (a, c)⟩ ⟨nodes', .ok (a', c')⟩
  | error {nodes nodes' : List Node} {e e' : SyntaxError}
      (hnodes : V.nodes nodes nodes') (he : V.error e e') :
      Alike V R ⟨nodes, .error e⟩ ⟨nodes', .error e'⟩

def Parser.Alike (V : Parser.View) (R : α → α → Prop) (p : Parser n α)
    (p' : Parser m α) : Prop :=
  ∀ k k' : Chunk, V.chunk k k' →
    ∀ (c : Cursor n) (c' : Cursor m), c.Alike V c' → (p k c).Alike V R (p' k' c')

namespace Cursor.Alike

variable {V : Parser.View} {c : Cursor n} {c' : Cursor m}

theorem head? (h : c.Alike V c') :
    Option.Rel V.token c.rest.head? c'.rest.head? := by
  obtain ⟨rest, last, bound⟩ := c
  obtain ⟨rest', last', bound'⟩ := c'
  cases h.rest with
  | nil => exact .none
  | cons ht hts => exact .some ht

theorem tail (h : c.Alike V c') : c.tail.Alike V c'.tail := by
  obtain ⟨rest, last, bound⟩ := c
  obtain ⟨rest', last', bound'⟩ := c'
  obtain ⟨hrest, hlast⟩ := h
  cases hrest with
  | nil => exact ⟨.nil, hlast⟩
  | cons ht hts => exact ⟨hts, V.token_pos ht⟩

end Cursor.Alike

namespace Parser.Alike

variable {V : View} {R : α → α → Prop} {S : β → β → Prop}

theorem still {p : Parser n α} {p' : Parser m α} {f : Chunk → Cursor n → α}
    {f' : Chunk → Cursor m → α} (hp : ∀ k c, p k c = ⟨[], .ok (f k c, c)⟩)
    (hp' : ∀ k c, p' k c = ⟨[], .ok (f' k c, c)⟩)
    (h : ∀ k k' c c', V.chunk k k' → Cursor.Alike V c c' → R (f k c) (f' k' c')) :
    Alike V R p p' := by
  intro k k' hk c c' hc
  rw [hp, hp']
  exact .ok (V.nodes_refl _) (h k k' c c' hk hc) hc

theorem bind {p : Parser n α} {p' : Parser m α} {f : α → Parser n β}
    {f' : α → Parser m β} (hp : Alike V R p p')
    (hf : ∀ a a', R a a' → Alike V S (f a) (f' a')) :
    Alike V S (p >>= f) (p' >>= f') := by
  intro k k' hk c c' hc
  change (Parser.bind p f k c).Alike V S (Parser.bind p' f' k' c')
  unfold Parser.bind
  have hfirst := hp k k' hk c c' hc
  generalize p k c = first at hfirst ⊢
  generalize p' k' c' = first' at hfirst ⊢
  cases hfirst with
  | error hnodes he => exact .error hnodes he
  | @ok nodes nodes' a a' c₁ c₁' hnodes ha hc₁ =>
      dsimp only
      have hsecond := hf a a' ha k k' hk c₁ c₁' hc₁
      generalize f a k c₁ = second at hsecond ⊢
      generalize f' a' k' c₁' = second' at hsecond ⊢
      cases hsecond with
      | error hmore he => exact .error (V.nodes_append hnodes hmore) he
      | ok hmore hb hc₂ => exact .ok (V.nodes_append hnodes hmore) hb hc₂

theorem here :
    Alike V Eq (Parser.here : Parser n Pos) (Parser.here : Parser m Pos) := by
  refine still (fun _ _ => rfl) (fun _ _ => rfl) fun k k' c c' hk hc => ?_
  have hhead := hc.head?
  generalize c.rest.head? = t at hhead ⊢
  generalize c'.rest.head? = t' at hhead ⊢
  cases hhead with
  | none => simp [V.chunk_finish hk]
  | some ht => simp [V.token_pos ht]

theorem emit (node : Node) :
    Alike V Eq (Parser.emit node : Parser n Unit)
      (Parser.emit node : Parser m Unit) :=
  fun _ _ _ _ _ hc => .ok (V.nodes_refl _) rfl hc

theorem wrap {f f' : List Node → Option α → List Node} {p : Parser n α}
    {p' : Parser m α} (hp : Alike V R p p')
    (hf : ∀ nodes nodes' a a', V.nodes nodes nodes' → Option.Rel R a a' →
      V.nodes (f nodes a) (f' nodes' a')) :
    Alike V R (p.wrap f) (p'.wrap f') := by
  intro k k' hk c c' hc
  unfold Parser.wrap
  have h := hp k k' hk c c' hc
  generalize p k c = o at h ⊢
  generalize p' k' c' = o' at h ⊢
  cases h with
  | error hnodes he => exact .error (hf _ _ _ _ hnodes .none) he
  | ok hnodes ha hc => exact .ok (hf _ _ _ _ hnodes (.some ha)) ha hc

theorem onToken {f : Token → Option (Parser n α)}
    {f' : Token → Option (Parser m α)} {p : Parser (n + 1) α}
    {p' : Parser (m + 1) α}
    (hf : ∀ t t', V.token t t' → Option.Rel (Alike V R) (f t) (f' t'))
    (hp : Alike V R p p') :
    Alike V R (Parser.onToken f p) (Parser.onToken f' p') := by
  intro k k' hk c c' hc
  cases hrest : c.rest with
  | nil =>
      have hrest' : c'.rest = [] := by simpa [hrest] using hc.rest
      rw [onToken_of_nil hrest, onToken_of_nil hrest']
      exact hp k k' hk c c' hc
  | cons t ts =>
      obtain ⟨t', ts', ht, hts, hrest'⟩ : ∃ t' ts', V.token t t' ∧
          List.Forall₂ V.token ts ts' ∧
          c'.rest = t' :: ts' := by
        simpa [hrest, List.forall₂_cons_left_iff] using hc.rest
      have hnext := hf t t' ht
      generalize hstep : f t = next at hnext
      generalize hstep' : f' t' = next' at hnext
      cases hnext with
      | none =>
          rw [onToken_of_none hrest hstep, onToken_of_none hrest' hstep']
          exact hp k k' hk c c' hc
      | @some q q' hq =>
          obtain ⟨hbound, heq⟩ := onToken_of_some k hrest hstep
          obtain ⟨hbound', heq'⟩ := onToken_of_some k' hrest' hstep'
          rw [heq, heq']
          have h :=
            hq k k' hk ⟨ts, t.pos, hbound⟩ ⟨ts', t'.pos, hbound'⟩ ⟨hts,
              V.token_pos ht⟩
          generalize q k ⟨ts, t.pos, hbound⟩ = o at h ⊢
          generalize q' k' ⟨ts', t'.pos, hbound'⟩ = o' at h ⊢
          cases h with
          | error hnodes he => exact .error hnodes he
          | ok hnodes ha hc => exact .ok hnodes ha ⟨hc.rest, hc.last⟩

end Parser.Alike

def Parser.View.comparison (V : View) : Comparison where
  toBasis := V.toBasis
  rel := Parser.Alike V
  absurd _ _ h := fun _ _ _ c c' _ => by
    rcases h with rfl | rfl
    · exact (Nat.not_lt_zero _ c.bound).elim
    · exact (Nat.not_lt_zero _ c'.bound).elim
  pure h := .still (fun _ _ => rfl) (fun _ _ => rfl) fun _ _ _ _ _ _ => h
  bind := .bind
  peek := .still (fun _ _ => rfl) (fun _ _ => rfl) fun _ _ _ _ _ hc => hc.head?
  peekSecond := .still (fun _ _ => rfl) (fun _ _ => rfl) fun _ _ c c' _ hc => by
    rw [← c.rest_tail, ← c'.rest_tail]
    exact hc.tail.head?
  here := .here
  last := .still (fun _ _ => rfl) (fun _ _ => rfl) fun _ _ _ _ _ hc => hc.last
  span shape start :=
    .still (fun _ _ => rfl) (fun _ _ => rfl) fun _ _ c c' hk hc => by
      rw [hc.last]
      exact V.value_span shape start _ hk
  errorHere fault :=
    .still (fun _ _ => rfl) (fun _ _ => rfl) fun _ _ _ _ hk hc =>
      V.error_at fault hk hc.head?
  throw h := fun _ _ _ _ _ _ => .error (V.nodes_refl _) h
  failAt fault h := fun _ _ hk _ _ _ =>
    .error (V.nodes_refl _) (V.error_at fault hk (.some h))
  skip := fun _ _ _ _ _ hc => .ok (V.nodes_refl _) rfl hc.tail
  onToken := .onToken
  mark _ hp := .bind .here fun _ _ hpos => hpos ▸ .bind (.emit _) fun _ _ _ => hp
  emit _ := .emit _
  within hf hp := hp.wrap fun _ _ _ _ hnodes _ => V.nodes_frame hf hnodes
  entry hindex hp := hp.wrap fun _ _ _ _ hnodes hinit =>
    V.nodes_entry hindex hnodes hinit
  locals hp := hp.wrap fun _ _ _ _ hnodes hinits => V.nodes_locals hnodes hinits
  assign hss hp := hp.wrap fun _ _ _ _ hnodes hinits =>
    V.nodes_assign hss hnodes hinits
  function hp := hp.wrap fun _ _ stop stop' hnodes hstop => by
    obtain rfl : stop = stop' := by
      cases hstop with
      | none => rfl
      | some h => exact congrArg some h
    exact V.nodes_function hnodes

/-! ## Outlines without source texts -/

/-- Tokens that the grammar cannot tell apart; they are one token if `same`
holds. -/
structure Token.Alike (same : Prop) (t t' : Token) : Prop where
  kind : t.kind = t'.kind
  value : t.value = t'.value
  pos : t.pos = t'.pos
  eq : same → t = t'

/-- An error without the token that it quotes. -/
def SyntaxError.unquoted (e : SyntaxError) : SyntaxError :=
  { e with near := e.near.map fun _ => [] }

/-- Errors that differ at most in the token that they quote, and not at all if
`same` holds. -/
structure SyntaxError.Alike (same : Prop) (e e' : SyntaxError) : Prop where
  unquoted : e.unquoted = e'.unquoted
  eq : same → e = e'

def Target.bare (t : Target) : Target :=
  { t with index := t.index.bare, text := [] }

def FieldHead.bare (head : FieldHead) : FieldHead :=
  { head with index := head.index.bare }

mutual

def Node.bare : Node → Node
  | .comments offset => .comments offset
  | .tableComments offset => .tableComments offset
  | .tableEnd => .tableEnd
  | .discard => .discard
  | .forget => .forget
  | .statement inner => .statement (bareAll inner)
  | .scope inner => .scope (bareAll inner)
  | .body owned line inner => .body owned line (bareAll inner)
  | .table owned inner => .table owned (bareAll inner)
  | .value inner => .value (bareAll inner)
  | .entry head inner init =>
    .entry head.bare (bareAll inner) (init.map Value.bare)
  | .locals names inner inits =>
    .locals names (bareAll inner) (inits.map (·.map Value.bare))
  | .assign targets inner inits =>
    .assign (targets.map Target.bare) (bareAll inner)
      (inits.map (·.map Value.bare))
  | .function head inner last => .function head (bareAll inner) last

def Node.bareAll : List Node → List Node
  | [] => []
  | node :: nodes => node.bare :: bareAll nodes

end

theorem Node.bareAll_append (nodes more : List Node) :
    Node.bareAll (nodes ++ more) = Node.bareAll nodes ++ Node.bareAll more := by
  induction nodes with
  | nil => rfl
  | cons node nodes ih => simp [Node.bareAll, ih]

theorem map_eq_of_forall₂ {f : α → β} {R : α → α → Prop}
    (hf : ∀ a a', R a a' → f a = f a') {as as' : List α}
    (h : List.Forall₂ R as as') : as.map f = as'.map f := by
  induction h with
  | nil => rfl
  | cons ha _ ih => rw [List.map_cons, List.map_cons, hf _ _ ha, ih]

theorem map_eq_of_rel {f : α → β} {R : α → α → Prop}
    (hf : ∀ a a', R a a' → f a = f a') {a a' : Option α} (h : Option.Rel R a a') :
    a.map f = a'.map f := by
  cases h with
  | none => rfl
  | some h => exact congrArg some (hf _ _ h)

/-- The view without source texts, where tokens and errors are the same if
`same` holds. -/
def Parser.View.bare (same : Prop) : View where
  token := Token.Alike same
  value v v' := v.bare = v'.bare
  error := SyntaxError.Alike same
  chunk k k' := k.finish = k'.finish
  nodes xs xs' := Node.bareAll xs = Node.bareAll xs'
  token_kind h := h.kind
  token_value h := h.value
  token_pos h := h.pos
  value_none := rfl
  value_shape {v v'} h := by rw [← v.shape_bare, h, Value.shape_bare]
  value_ref ref h := congrArg (fun v : Value => { v with ref }) h
  chunk_finish h := h
  value_span shape start last _ := by
    rw [Value.bare_extend, Value.bare_extend]
    rfl
  error_at {k k' t t'} fault hk ht := by
    cases ht with
    | none =>
        simp [Parser.errorAt, show k.finish = k'.finish from hk,
          SyntaxError.Alike.mk]
    | some ht =>
        refine ⟨?_, fun hsame => ?_⟩
        · simp [Parser.errorAt, SyntaxError.unquoted, ht.pos]
        · simp [Parser.errorAt, ht.eq hsame]
  nodes_refl _ := rfl
  nodes_append h h' := by rw [Node.bareAll_append, Node.bareAll_append, h, h']
  nodes_frame hf h := by
    cases hf <;> simp [Node.bareAll, Node.bare, show Node.bareAll _ = _ from h]
  nodes_entry hindex h hinit := by
    simp [Node.bareAll, Node.bare, FieldHead.bare, hindex,
      show Node.bareAll _ = _ from h,
      map_eq_of_rel (fun _ _ h => h) hinit]
  nodes_locals h hinits := by
    simp [Node.bareAll, Node.bare, show Node.bareAll _ = _ from h,
      map_eq_of_rel (fun _ _ => map_eq_of_forall₂ fun _ _ h => h) hinits]
  nodes_assign hss h hinits := by
    have htarget := map_eq_of_forall₂ (f := Target.bare ∘ Suffixed.target)
      (fun s s' hs => by
        simp [Suffixed.target, Target.bare, hs.path, hs.pos, hs.index])
      hss
    simp [Node.bareAll, Node.bare, show Node.bareAll _ = _ from h, htarget,
      map_eq_of_rel (fun _ _ => map_eq_of_forall₂ fun _ _ h => h) hinits]
  nodes_function h := by
    simp [Node.bareAll, Node.bare, show Node.bareAll _ = _ from h]

/-- Outlines that differ at most in source texts, with like errors. -/
structure Outline.Alike (same : Prop) (o o' : Outline) : Prop where
  nodes : Node.bareAll o.nodes = Node.bareAll o'.nodes
  error : Option.Rel (SyntaxError.Alike same) o.error o'.error

/-- What an outcome leaves of a source. -/
def Outcome.outline (o : Outcome n α) : Outline :=
  match o.result with
  | .ok _ => ⟨o.nodes, none⟩
  | .error e => ⟨o.nodes, some e⟩

theorem Outcome.Alike.outline {same : Prop} {R : α → α → Prop} {o : Outcome n α}
    {o' : Outcome m α} (h : o.Alike (Parser.View.bare same) R o') :
    o.outline.Alike same o'.outline := by
  cases h with
  | ok hnodes _ _ => exact ⟨hnodes, .none⟩
  | error hnodes he => exact ⟨hnodes, .some he⟩

theorem Outline.ofTokens_eq (source : Bytes) (finish : Pos)
    (tokens : List Token) :
    Outline.ofTokens source finish tokens =
      ((Grammar.upTo (tokens.length + 1)).chunk ⟨source, finish⟩ ⟨tokens, .none,
        Nat.lt_succ_self _⟩).outline := by
  unfold Outline.ofTokens
  generalize (Grammar.upTo _).chunk _ _ = outcome
  obtain ⟨nodes, result⟩ := outcome
  cases result <;> rfl

/-- The tokens decide the outline, whatever source they stand in. -/
theorem Outline.Alike.ofTokens {same : Prop} (source source' : Bytes)
    (finish : Pos) {tokens tokens' : List Token}
    (h : List.Forall₂ (Token.Alike same) tokens tokens') :
    (Outline.ofTokens source finish tokens).Alike same
      (Outline.ofTokens source' finish tokens') := by
  have hchunk :=
    (Grammar.related_upTo (Parser.View.bare same).comparison (tokens.length + 1)
      (tokens'.length + 1)).chunk
      ⟨source, finish⟩ ⟨source', finish⟩ rfl ⟨tokens, .none, Nat.lt_succ_self _⟩
      ⟨tokens', .none, Nat.lt_succ_self _⟩ ⟨h, rfl⟩
  rw [Outline.ofTokens_eq, Outline.ofTokens_eq]
  exact hchunk.outline

end LuaGloss

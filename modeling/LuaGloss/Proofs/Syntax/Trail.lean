import LuaGloss.Proofs.Syntax.Congruence
import LuaGloss.Proofs.Syntax.Reading
import LuaGloss.Proofs.Syntax.Tree

/-!
# The way of a parser through its tokens

A parser never goes back.  Whether it succeeds or fails, the offsets at which
its nodes say that comments are read are those of tokens that it comes to, in
the order in which it comes to them.

Whenever a parser fails, it blames one of the tokens that it was given, or the
end of the source.  The token need not be the next one: it may have been taken
away already, and an error in the parameters of a function is kept until the
function has been recorded.  So the judgement says of the value of a parser what
it says of its error.
-/

namespace LuaGloss

open LuaGloss.Tree (nextOffset)

namespace Node

mutual

/-- The offsets at which comments are read in a node, from left to right, also
between the entries of tables. -/
def marks : Node → List Nat
  | comments offset | tableComments offset => [offset]
  | tableEnd | discard | forget => []
  | statement inner | scope inner | body _ _ inner | table _ inner | value inner
  | entry _ inner _ | locals _ inner _
  | assign _ inner _ | function _ inner _ => marksAll inner

def marksAll : List Node → List Nat
  | [] => []
  | node :: nodes => node.marks ++ marksAll nodes

end

@[simp] theorem marksAll_append (nodes nodes' : List Node) :
    marksAll (nodes ++ nodes') = marksAll nodes ++ marksAll nodes' := by
  induction nodes with
  | nil => rfl
  | cons node nodes ih => simp [marksAll, ih]

end Node

open LuaGloss.Node (marksAll)

/-- Offsets are marked on the way from the tokens `ts` to the tokens `rest`. -/
inductive Trail (finish : Pos) : List Token → List Nat → List Token → Prop
  | stay (ts : List Token) : Trail finish ts [] ts
  | mark {ts rest : List Token} {marks : List Nat} : Trail finish ts marks rest →
      Trail finish ts (nextOffset finish ts :: marks) rest
  | step (t : Token) {ts rest : List Token} {marks : List Nat} :
      Trail finish ts marks rest →
      Trail finish (t :: ts) marks rest

namespace Trail

variable {finish : Pos} {ts mid rest : List Token} {marks marks' : List Nat}

theorem trans (h : Trail finish ts marks mid) (h' : Trail finish mid marks' rest) :
    Trail finish ts (marks ++ marks') rest := by
  induction h with
  | stay => exact h'
  | mark _ ih => exact .mark (ih h')
  | step t _ ih => exact .step t (ih h')

theorem suffix (h : Trail finish ts marks rest) : rest <:+ ts := by
  induction h with
  | stay => exact List.suffix_rfl
  | mark _ ih => exact ih
  | step t _ ih => exact ih.trans (List.suffix_cons t _)

theorem pairwise (h : Trail finish ts marks rest)
    (hts : (ts.map (·.pos.offset) ++ [finish.offset]).Pairwise (· ≤ ·)) :
    marks.Pairwise (· ≤ ·) ∧ ∀ mark ∈ marks, nextOffset finish ts ≤ mark := by
  induction h with
  | stay ts => exact ⟨.nil, by simp⟩
  | mark _ ih =>
      obtain ⟨hmarks, hlower⟩ := ih hts
      exact ⟨.cons hlower hmarks, List.forall_mem_cons.2 ⟨Nat.le_refl _, hlower⟩⟩
  | @step t ts rest marks _ ih =>
      obtain ⟨hfirst, hmore⟩ := List.pairwise_cons.1 hts
      obtain ⟨hmarks, hlower⟩ := ih hmore
      have hnext : t.pos.offset ≤ nextOffset finish ts := by
        cases ts with
        | nil => exact hfirst _ (by simp [nextOffset])
        | cons u ts => exact hfirst _ (by simp [nextOffset])
      exact ⟨hmarks, fun mark hmark => Nat.le_trans hnext (hlower mark hmark)⟩

end Trail

/-- The error was found at one of the tokens `ts` or at the end of the
source. -/
def SyntaxError.Blames (chunk : Chunk) (ts : List Token) (e : SyntaxError) :
    Prop :=
  ∃ (t : Option Token) (fault : SyntaxFault), (∀ u ∈ t, u ∈ ts) ∧
    e = Parser.errorAt chunk t fault

theorem SyntaxError.Blames.pos {chunk : Chunk} {ts : List Token}
    {e : SyntaxError} (h : e.Blames chunk ts) :
    e.pos = chunk.finish ∨ ∃ t ∈ ts, e.pos = t.pos := by
  obtain ⟨t, fault, hmem, rfl⟩ := h
  cases t with
  | none => exact .inl rfl
  | some t => exact .inr ⟨t, hmem t rfl, rfl⟩

/-- What the outcome comes to: a value as `post` says with the tokens `rest`
left, or an error that blames one of the tokens `ts` or the end of the
source. -/
inductive Outcome.Ends (chunk : Chunk) (ts : List Token) (post : α → Prop)
    (rest : List Token) (o : Outcome n α) : Prop where
  | ok {a : α} {c : Cursor n} :
      o.result = .ok (a, c) → post a → c.rest = rest → Ends chunk ts post rest o
  | error {e : SyntaxError} :
      o.result = .error e → e.Blames chunk ts → Ends chunk ts post rest o

namespace Parser

/-- From every place where nothing but the tokens `ts` is left the parser marks
offsets on its way, whether it succeeds or not. -/
def Travels (chunk : Chunk) (ts : List Token) (p : Parser n α) (post : α → Prop) :
    Prop :=
  ∀ c : Cursor n, c.rest ⊆ ts →
    ∃ rest, Trail chunk.finish c.rest (marksAll (p chunk c).nodes) rest ∧
    (p chunk c).Ends chunk ts post rest

namespace Travels

variable {chunk : Chunk} {ts : List Token} {post : α → Prop}

theorem bind {p : Parser n α} {f : α → Parser n β} {post' : β → Prop}
    (hp : Travels chunk ts p post)
    (hf : ∀ a, post a → Travels chunk ts (f a) post') :
    Travels chunk ts (p >>= f) post' := by
  intro c hc
  obtain ⟨mid, htrail, hmid⟩ := hp c hc
  change ∃ rest,
    Trail chunk.finish c.rest (marksAll (Parser.bind p f chunk c).nodes) rest ∧
    (Parser.bind p f chunk c).Ends chunk ts post' rest
  unfold Parser.bind
  cases hmid with
  | error hresult he =>
      exact ⟨mid, by simpa [hresult] using htrail, .error (by simp [hresult]) he⟩
  | @ok a c' hresult ha hrest =>
      subst hrest
      obtain ⟨rest, htrail', hends⟩ :=
        hf a ha c' (List.Subset.trans htrail.suffix.subset hc)
      refine ⟨rest, by simpa [hresult] using htrail.trans htrail', ?_⟩
      cases hends with
      | error hresult' he => exact .error (by simp [hresult, hresult']) he
      | ok hresult' hb hrest' => exact .ok (by simp [hresult, hresult']) hb hrest'

theorem still {p : Parser n α} (hnodes : ∀ c, (p chunk c).nodes = [])
    (hends : ∀ c, c.rest ⊆ ts → (p chunk c).Ends chunk ts post c.rest) :
    Travels chunk ts p post := by
  intro c hc
  refine ⟨c.rest, ?_, hends c hc⟩
  rw [hnodes]
  exact .stay _

theorem skip :
    Travels chunk ts (Parser.skip : Parser n Unit) fun a => ∃ a', a = a' := by
  intro c hc
  refine ⟨c.tail.rest, ?_, .ok rfl ⟨_, rfl⟩ rfl⟩
  change Trail _ _ [] _
  rw [Cursor.rest_tail]
  cases c.rest with
  | nil => exact .stay _
  | cons t rest => exact .step t (.stay rest)

theorem wrap {p : Parser n α} {f : List Node → Option α → List Node}
    (hf : ∀ nodes a, marksAll (f nodes a) = marksAll nodes)
    (hp : Travels chunk ts p post) : Travels chunk ts (p.wrap f) post := by
  intro c hc
  obtain ⟨rest, htrail, hends⟩ := hp c hc
  refine ⟨rest, ?_, ?_⟩
  · change Trail _ _ (marksAll (f _ _)) _
    rw [hf]
    exact htrail
  · cases hends with
    | ok hresult ha hrest => exact .ok hresult ha hrest
    | error hresult he => exact .error hresult he

theorem mark {f : Nat → Node} (hf : ∀ offset, (f offset).marks = [offset])
    {p : Parser n α} (hp : Travels chunk ts p post) :
    Travels chunk ts (Parser.here >>= fun pos => Parser.emit (f pos.offset) >>=
      fun _ => p) post := by
  intro c hc
  obtain ⟨rest, htrail, hends⟩ := hp c hc
  refine ⟨rest, ?_, ?_⟩
  · change Trail _ _ ((f _).marks ++ marksAll (p chunk c).nodes) _
    rw [hf]
    exact .mark htrail
  · cases hends with
    | ok hresult ha hrest => exact .ok hresult ha hrest
    | error hresult he => exact .error hresult he

theorem onToken {f : Token → Option (Parser n α)} {otherwise : Parser (n + 1) α}
    (hf : ∀ t ∈ ts, ∀ p, f t = some p → Travels chunk ts p post)
    (hotherwise : Travels chunk ts otherwise post) :
    Travels chunk ts (Parser.onToken f otherwise) post := by
  intro c hc
  cases hts : c.rest with
  | nil =>
      rw [onToken_of_nil hts, ← hts]
      exact hotherwise c hc
  | cons t more =>
      cases hp : f t with
      | none =>
          rw [onToken_of_none hts hp, ← hts]
          exact hotherwise c hc
      | some p =>
          obtain ⟨hbound, heq⟩ := onToken_of_some chunk hts hp
          obtain ⟨ht, hmore⟩ := List.cons_subset.1 (hts ▸ hc)
          obtain ⟨rest, htrail, hends⟩ := hf t ht p hp ⟨more, t.pos, hbound⟩ hmore
          rw [heq]
          refine ⟨rest, .step t htrail, ?_⟩
          unfold Outcome.weaken
          cases hends with
          | error hresult he => exact .error (by simp [hresult, Except.map]) he
          | @ok _ c' hresult ha hrest =>
              exact .ok (by simp only [hresult, Except.map]) ha
                (c := c'.weaken) hrest

theorem rel_self {t : Option Token} (h : ∀ u ∈ t, u ∈ ts) :
    Option.Rel (fun t t' => t = t' ∧ t ∈ ts) t t := by
  cases t with
  | none => exact .none
  | some t => exact .some ⟨rfl, h t rfl⟩

def comparison (chunk : Chunk) (ts : List Token) : Comparison where
  token t t' := t = t' ∧ t ∈ ts
  value := Eq
  error e e' := e = e' ∧ e.Blames chunk ts
  rel {n m} _ R p _ := n = m → Travels chunk ts p fun a => ∃ a', R a a'
  token_kind h := h.1 ▸ rfl
  token_value h := h.1 ▸ rfl
  token_pos h := h.1 ▸ rfl
  value_none := rfl
  value_shape h := h ▸ rfl
  value_ref _ h := h ▸ rfl
  absurd _ _ h hn := by
    obtain rfl : _ = 0 := h.elim id fun hm => hn.trans hm
    exact fun c _ => (Nat.not_lt_zero _ c.bound).elim
  pure h _ := still (fun _ => rfl) fun _ _ => .ok rfl ⟨_, h⟩ rfl
  bind hp hf hn := (hp hn).bind fun a ⟨a', ha⟩ => hf a a' ha hn
  peek _ := still (fun _ => rfl) fun _ hc =>
    .ok rfl ⟨_, rel_self fun _ hu => hc (List.mem_of_head? hu)⟩ rfl
  peekSecond _ := still (fun _ => rfl) fun _ hc =>
    .ok rfl ⟨_, rel_self fun _ hu =>
      hc (List.mem_of_mem_tail (List.mem_of_head? hu))⟩ rfl
  here _ := still (fun _ => rfl) fun _ _ => .ok rfl ⟨_, rfl⟩ rfl
  last _ := still (fun _ => rfl) fun _ _ => .ok rfl ⟨_, rfl⟩ rfl
  span _ _ _ := still (fun _ => rfl) fun _ _ => .ok rfl ⟨_, rfl⟩ rfl
  errorHere fault _ := still (fun _ => rfl) fun c hc =>
    .ok rfl ⟨_, rfl, c.rest.head?, fault, fun _ hu =>
      hc (List.mem_of_head? hu), rfl⟩ rfl
  throw h _ := still (fun _ => rfl) fun _ _ => .error rfl h.2
  failAt {_ _ _ _ t _} fault h _ := still (fun _ => rfl) fun _ _ =>
    .error rfl ⟨some t, fault, by simpa using h.2, rfl⟩
  skip _ := skip
  onToken {_ _ _ _ _ f' _ _} hf hp hn := by
    refine onToken (fun t ht p hsome => ?_) (hp hn)
    have hrel := hf t t ⟨rfl, ht⟩
    generalize f' t = next at hrel
    rw [hsome] at hrel
    cases hrel with
    | some h => exact h (Nat.succ.inj hn)
  mark hf hp hn := mark (fun _ => by cases hf <;> rfl) (hp hn)
  emit h _ := by
    intro c _
    refine ⟨c.rest, ?_, .ok rfl ⟨_, rfl⟩ rfl⟩
    cases h <;> exact .stay _
  within hf hp hn :=
    wrap (fun _ _ => by cases hf <;> exact List.append_nil _) (hp hn)
  entry _ hp hn := wrap (fun _ _ => List.append_nil _) (hp hn)
  locals hp hn := wrap (fun _ _ => List.append_nil _) (hp hn)
  assign _ hp hn := wrap (fun _ _ => List.append_nil _) (hp hn)
  function hp hn := wrap (fun _ _ => List.append_nil _) (hp hn)

end Travels

end Parser

namespace Outline

theorem travels_chunk (chunk : Chunk) (ts : List Token) :
    (Grammar.upTo n).chunk.Travels chunk ts fun a => ∃ a', a = a' :=
  (Grammar.related_upTo (Parser.Travels.comparison chunk ts) n n).chunk rfl

variable {source : Bytes} {finish : Pos} {ts : List Token}

/-- The comments of an outline are read from left to right, up to the syntax
error if there is one. -/
theorem marks_pairwise (source : Bytes)
    (hts : (ts.map (·.pos.offset) ++ [finish.offset]).Pairwise (· ≤ ·)) :
    (marksAll (Outline.ofTokens source finish ts).nodes).Pairwise (· ≤ ·) := by
  obtain ⟨rest, htrail, -⟩ :=
    travels_chunk (n := ts.length + 1) ⟨source, finish⟩ ts
      ⟨ts, .none, Nat.lt_succ_self _⟩ (List.Subset.refl ts)
  have hpairwise := (htrail.pairwise hts).1
  unfold Outline.ofTokens
  dsimp only
  split <;> exact hpairwise

/-- The error of an outline stands at a token or at the end of the source. -/
theorem pos_error {e : SyntaxError}
    (h : (Outline.ofTokens source finish ts).error = some e) :
    e.pos = finish ∨ ∃ t ∈ ts, e.pos = t.pos := by
  obtain ⟨rest, -, hends⟩ := travels_chunk (n := ts.length + 1) ⟨source, finish⟩ ts
    ⟨ts, .none, Nat.lt_succ_self _⟩ (List.Subset.refl ts)
  unfold Outline.ofTokens at h
  cases hends with
  | ok hresult _ _ => simp [hresult] at h
  | error hresult he =>
      simp only [hresult, Option.some.injEq] at h
      exact h ▸ he.pos

end Outline

end LuaGloss

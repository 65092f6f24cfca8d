import LuaGloss.Proofs.Source.Bodies
import LuaGloss.Proofs.Syntax.Reading
import LuaGloss.Proofs.Syntax.Tree

/-!
# Trees that parsers grow

A judgement on parsers that looks at the tokens themselves.  A parser that
succeeds has arranged the tokens that it took in a row of trees, and the nodes
that it has yielded fit these trees: comments are read before every statement
and at the end of every block, and before every entry of a table constructor
whose entries are recorded.

There is one rule for each combinator.  Rows of trees are put together and nodes
are kept in step by the rules alone, so that what is left to be checked of a
rule of the grammar is its production.
-/

namespace LuaGloss

/-! ## Nodes that fit trees -/

namespace Node

@[simp] theorem offsetsIn_append (nodes nodes' : List Node) :
    offsetsIn (nodes ++ nodes') = offsetsIn nodes ++ offsetsIn nodes' := by
  induction nodes with
  | nil => rfl
  | cons node nodes ih => simp [offsetsIn, ih]

/-- The offsets at which comments are read between the entries of a table
constructor, given what is inside it. -/
def entryStops : List Node → List Nat
  | [] => []
  | tableComments offset :: nodes => offset :: entryStops nodes
  | _ :: nodes => entryStops nodes

@[simp] theorem entryStops_append (nodes nodes' : List Node) :
    entryStops (nodes ++ nodes') = entryStops nodes ++ entryStops nodes' := by
  fun_induction entryStops nodes with
  | case1 => rfl
  | case2 offset nodes ih => simp [entryStops, ih]
  | case3 node nodes hnode ih =>
      rw [List.cons_append, entryStops, ih]
      exact hnode

mutual

/-- Whether no table is built for the owner of the expression that the node
belongs to. -/
def IsFree : Node → Prop
  | table owned _ => owned = false
  | value inner => AreFree inner
  | _ => True

def AreFree : List Node → Prop
  | [] => True
  | node :: nodes => node.IsFree ∧ AreFree nodes

end

theorem areFree_append {nodes nodes' : List Node} :
    AreFree (nodes ++ nodes') ↔ AreFree nodes ∧ AreFree nodes' := by
  induction nodes with
  | nil => simp [AreFree]
  | cons node nodes ih => simp [AreFree, ih, and_assoc]

/-- What is yielded for an initializer: if a table is built for the item, then
it is built first, and `opens` holds of the value and the inside of the table
constructor. -/
inductive Fits (opens : Value → List Node → Prop) (v : Value) : List Node → Prop
  | free {nodes : List Node} : AreFree nodes → Fits opens v nodes
  | table {inner more : List Node} :
      opens v inner → AreFree more → Fits opens v (.table true inner :: more)

/-- The same for a list of initializers. -/
inductive FitAll (opens : Value → List Node → Prop) : List Value → List Node → Prop
  | nil : FitAll opens [] []
  | cons {v : Value} {vs : List Value} {inner nodes : List Node} :
      Fits opens v inner → FitAll opens vs nodes →
      FitAll opens (v :: vs) (.value inner :: nodes)

mutual

/-- Whether every initializer in a node has been read to its end and fits what
is yielded for it. -/
def IsPlaced (opens : Value → List Node → Prop) : Node → Prop
  | comments _ | tableComments _ | tableEnd | discard | forget => True
  | statement inner | scope inner | body _ _ inner | table _ inner
  | value inner => ArePlaced opens inner
  | entry _ inner init => (∃ v ∈ init, Fits opens v inner) ∧ ArePlaced opens inner
  | locals _ inner inits
  | assign _ inner inits =>
    (∃ vs ∈ inits, FitAll opens vs inner) ∧ ArePlaced opens inner
  | function _ inner _ => AreFree inner ∧ ArePlaced opens inner

def ArePlaced (opens : Value → List Node → Prop) : List Node → Prop
  | [] => True
  | node :: nodes => node.IsPlaced opens ∧ ArePlaced opens nodes

end

variable {opens opens' : Value → List Node → Prop}

theorem arePlaced_append {nodes nodes' : List Node} :
    ArePlaced opens (nodes ++ nodes') ↔ ArePlaced opens nodes ∧
    ArePlaced opens nodes' := by
  induction nodes with
  | nil => simp [ArePlaced]
  | cons node nodes ih => simp [ArePlaced, ih, and_assoc]

theorem Fits.mono {v : Value} (himp : ∀ inner, opens v inner → opens' v inner)
    {nodes : List Node} (h : Fits opens v nodes) : Fits opens' v nodes := by
  cases h with
  | free hfree => exact .free hfree
  | table hopens hmore => exact .table (himp _ hopens) hmore

theorem FitAll.mono (himp : ∀ v inner, opens v inner → opens' v inner)
    {vs : List Value} {nodes : List Node} (h : FitAll opens vs nodes) :
    FitAll opens' vs nodes := by
  induction h with
  | nil => exact .nil
  | cons hfits _ ih => exact .cons (hfits.mono (himp _)) ih

mutual

theorem IsPlaced.mono (himp : ∀ v inner, opens v inner → opens' v inner) :
    (node : Node) → node.IsPlaced opens → node.IsPlaced opens'
  | comments _, _ | tableComments _, _ | tableEnd, _ | discard, _
  | forget, _ => trivial
  | statement inner, h | scope inner, h | body _ _ inner, h | table _ inner, h
  | value inner, h =>
    ArePlaced.mono himp inner h
  | entry _ inner _, ⟨⟨v, hv, hfits⟩, h⟩ =>
    ⟨⟨v, hv, hfits.mono (himp v)⟩, ArePlaced.mono himp inner h⟩
  | locals _ inner _, ⟨⟨vs, hvs, hfits⟩, h⟩
  | assign _ inner _, ⟨⟨vs, hvs, hfits⟩, h⟩ =>
    ⟨⟨vs, hvs, hfits.mono himp⟩, ArePlaced.mono himp inner h⟩
  | function _ inner _, ⟨hfree, h⟩ => ⟨hfree, ArePlaced.mono himp inner h⟩

theorem ArePlaced.mono (himp : ∀ v inner, opens v inner → opens' v inner) :
    (nodes : List Node) → ArePlaced opens nodes → ArePlaced opens' nodes
  | [], _ => trivial
  | node :: nodes, h =>
    ⟨IsPlaced.mono himp node h.1, ArePlaced.mono himp nodes h.2⟩

end

end Node

namespace Tree

open LuaGloss.Node

/-- Whether a tree begins with a table constructor whose inside is `inner`:
comments are read before its entries. -/
def Leads (tree : Tree) (inner : List Node) : Prop :=
  ∃ c : Tree, c.Sub tree ∧ c.IsA .table ∧ c.first = tree.first ∧
  c.entryOffsets ⊆ entryStops inner

def Opens (tree : Tree) (v : Value) (inner : List Node) : Prop :=
  ∃ e : Tree, e.Sub tree ∧ e.Leads inner ∧
  v.start = min e.first.offset e.last.offset

def OpensIn (trees : List Tree) (v : Value) (inner : List Node) : Prop :=
  ∃ tree ∈ trees, tree.Opens v inner

theorem Opens.sub {s t : Tree} {v : Value} {inner : List Node}
    (h : s.Opens v inner) (hsub : s.Sub t) : t.Opens v inner := by
  obtain ⟨e, he, hopens⟩ := h
  exact ⟨e, he.trans hsub, hopens⟩

theorem OpensIn.sub {trees trees' : List Tree}
    (hsub : ∀ s ∈ trees, ∃ t ∈ trees', s.Sub t) {v : Value} {inner : List Node}
    (h : OpensIn trees v inner) : OpensIn trees' v inner := by
  obtain ⟨s, hs, hopens⟩ := h
  obtain ⟨t, ht, hst⟩ := hsub s hs
  exact ⟨t, ht, hopens.sub hst⟩

/-- Whether nodes fit a row of trees that `rest` follows. -/
structure Fit (finish : Pos) (trees : List Tree) (rest : List Token)
    (nodes : List Node) : Prop where
  spots : spotsAll finish trees rest ⊆ offsetsIn nodes
  placed : ArePlaced (OpensIn trees) nodes

theorem spotsAll_append (finish : Pos) (cs ds : List Tree) (rest : List Token) :
    spotsAll finish (cs ++ ds) rest =
      spotsAll finish cs (tokensAll ds ++ rest) ++ spotsAll finish ds rest := by
  induction cs with
  | nil => rfl
  | cons c cs ih => simp [spotsAll, ih]

theorem spots_node {p : Phrase} (hp : p ≠ .block) (finish : Pos)
    (children : List Tree) (rest : List Token) :
    (node p children).spots finish rest = spotsAll finish children rest := by
  cases p <;> first | exact absurd rfl hp | rfl

theorem Fit.append {finish : Pos} {trees more : List Tree} {rest : List Token}
    {nodes nodes' : List Node}
    (h : Fit finish trees (tokensAll more ++ rest) nodes)
    (h' : Fit finish more rest nodes') :
    Fit finish (trees ++ more) rest (nodes ++ nodes') where
  spots := by
    rw [spotsAll_append, offsetsIn_append]
    exact List.append_subset.2
      ⟨List.subset_append_of_subset_left _ h.spots,
        List.subset_append_of_subset_right _ h'.spots⟩
  placed := by
    have hleft : ArePlaced (OpensIn (trees ++ more)) nodes :=
      ArePlaced.mono (fun _ _ => .sub fun s hs =>
        ⟨s, List.mem_append_left _ hs, .refl s⟩) nodes h.placed
    have hright : ArePlaced (OpensIn (trees ++ more)) nodes' :=
      ArePlaced.mono (fun _ _ => .sub fun s hs =>
        ⟨s, List.mem_append_right _ hs, .refl s⟩) nodes' h'.placed
    exact arePlaced_append.2 ⟨hleft, hright⟩

/-! ## Rows of trees under new roots -/

/-- The position of the last token of a row of trees; without one, the position
before. -/
def lastOf (past : Pos) (trees : List Tree) : Pos :=
  ((tokensAll trees).getLast?.map (·.pos)).getD past

theorem lastOf_append (past : Pos) (trees more : List Tree) :
    lastOf (lastOf past trees) more = lastOf past (trees ++ more) := by
  unfold lastOf
  rw [tokensAll_append, List.getLast?_append]
  cases (tokensAll more).getLast? <;> simp

/-- Whether a row of trees has the tokens of another and its trees as parts, and
whatever fits the other fits it. -/
structure Regroups (trees old : List Tree) : Prop where
  tokens : tokensAll trees = tokensAll old
  spots : ∀ finish rest, spotsAll finish trees rest ⊆ spotsAll finish old rest
  sub : ∀ s ∈ old, ∃ t ∈ trees, s.Sub t

namespace Regroups

variable {trees trees' old old' : List Tree}

theorem refl (trees : List Tree) : Regroups trees trees :=
  ⟨rfl, fun _ _ => .refl _, fun s hs => ⟨s, hs, .refl s⟩⟩

theorem trans (h : Regroups trees trees') (h' : Regroups trees' old) :
    Regroups trees old where
  tokens := h.tokens.trans h'.tokens
  spots finish rest :=
    List.Subset.trans (h.spots finish rest) (h'.spots finish rest)
  sub s hs := by
    obtain ⟨t, ht, hst⟩ := h'.sub s hs
    obtain ⟨u, hu, htu⟩ := h.sub t ht
    exact ⟨u, hu, hst.trans htu⟩

theorem append (h : Regroups trees old) (h' : Regroups trees' old') :
    Regroups (trees ++ trees') (old ++ old') where
  tokens := by rw [tokensAll_append, tokensAll_append, h.tokens, h'.tokens]
  spots finish rest := by
    rw [spotsAll_append, spotsAll_append, h'.tokens]
    exact List.append_subset.2 ⟨List.subset_append_of_subset_left _ (h.spots _ _),
      List.subset_append_of_subset_right _ (h'.spots _ _)⟩
  sub s hs := by
    rcases List.mem_append.1 hs with hleft | hright
    · obtain ⟨t, ht, hst⟩ := h.sub s hleft
      exact ⟨t, List.mem_append_left _ ht, hst⟩
    · obtain ⟨t, ht, hst⟩ := h'.sub s hright
      exact ⟨t, List.mem_append_right _ ht, hst⟩

theorem node (p : Phrase) (children : List Tree) (hp : p ≠ .block) :
    Regroups [.node p children] children where
  tokens := List.append_nil _
  spots finish rest := by
    rw [spotsAll, spotsAll, List.append_nil, spots_node hp]
    exact .refl _
  sub s hs := ⟨_, List.mem_singleton_self _, .child hs (.refl s)⟩

theorem under {p : Phrase} (h : Regroups trees old) (hp : p ≠ .block) :
    Regroups [.node p trees] old :=
  (node p trees hp).trans h

theorem children {p : Phrase} {children : List Tree}
    (h : Regroups trees (.node p children :: old)) (hp : p ≠ .block) :
    Regroups trees (children ++ old) :=
  h.trans ((node p children hp).append (refl old))

theorem last_eq {tree : Tree} (h : Regroups [tree] old) :
    tree.last = lastOf .none old := by
  rw [lastOf, ← h.tokens, tokensAll, tokensAll, List.append_nil]
  rfl

theorem ends {tree first : Tree} (h : Regroups [tree] (first :: old))
    (hne : first.tokens ≠ []) :
    tree.first = first.first ∧ tree.last = lastOf first.last old := by
  constructor
  · have htokens : tree.tokens = first.tokens ++ tokensAll old := by
      have hall := h.tokens
      rwa [tokensAll, tokensAll, List.append_nil, tokensAll] at hall
    rw [Tree.first, Tree.first, htokens]
    cases hfirst : first.tokens with
    | nil => exact absurd hfirst hne
    | cons t more => rfl
  · have hfirst : first.last = lastOf .none [first] := (refl [first]).last_eq
    rw [h.last_eq, hfirst, lastOf_append]
    rfl

theorem fit (h : Regroups trees old) {finish : Pos} {rest : List Token}
    {nodes : List Node} (hfit : Fit finish old rest nodes) :
    Fit finish trees rest nodes where
  spots := List.Subset.trans (h.spots finish rest) hfit.spots
  placed := ArePlaced.mono (fun _ _ => .sub h.sub) nodes hfit.placed

end Regroups

def Forms (p : Phrase) (trees : List Tree) : Prop :=
  ∃ tree, Regroups [tree] trees ∧ tree.IsA p

theorem Forms.of_spells {p : Phrase} {syms : List Sym} {trees : List Tree}
    (hp : p ≠ .block) (hproduction : Production p syms)
    (hspells : Spells trees syms) : Forms p trees :=
  ⟨.node p trees, .node p trees hp, .node hproduction hspells⟩

theorem last_node (p : Phrase) (before : List Tree) (t : Token)
    (trees : List Tree) :
    (node p (before ++ leaf t :: trees)).last = lastOf t.pos trees := by
  calc (node p (before ++ leaf t :: trees)).last
      = lastOf (lastOf .none before) ([leaf t] ++ trees) :=
        (lastOf_append _ _ _).symm
    _ = lastOf t.pos trees := (lastOf_append _ _ _).symm

/-- The trees of a block under their root, where comments are read at both
ends. -/
theorem Fit.block {finish : Pos} {trees : List Tree} {rest : List Token}
    {nodes : List Node} (h : Fit finish trees rest nodes)
    (hbegin : nextOffset finish (tokensAll trees ++ rest) ∈ offsetsIn nodes)
    (hend : nextOffset finish rest ∈ offsetsIn nodes) :
    Fit finish [.node .block trees] rest nodes where
  spots := by
    rw [spotsAll, spotsAll, List.append_nil, Tree.spots]
    exact List.cons_subset.2 ⟨hbegin, List.cons_subset.2 ⟨hend, h.spots⟩⟩
  placed :=
    ArePlaced.mono (fun _ _ => .sub fun s hs =>
      ⟨_, List.mem_singleton_self _, .child hs (.refl s)⟩) nodes h.placed

end Tree

/-! ## The judgement -/

namespace Parser

open LuaGloss.Tree LuaGloss.Node

/-- What can be said of the value of a parser, the trees that it has grown, the
tokens left after it and the nodes. -/
abbrev Post (α : Type) : Type := α → List Tree → List Token → List Node → Prop

/-- If the tokens `ts` are left and the last token was at `last`, then a parser
that succeeds has arranged the tokens that it took in a row of trees, which fits
the nodes that it has yielded; and `post` holds of its value, the trees, the
tokens left after it and the nodes. -/
def Grows (chunk : Chunk) (p : Parser n α) (ts : List Token) (last : Pos)
    (post : α → List Tree → List Token → List Node → Prop) : Prop :=
  ∀ c : Cursor n, c.rest = ts → c.last = last →
    ∀ a c', (p chunk c).result = .ok (a, c') →
    ∃ trees, ts = tokensAll trees ++ c'.rest ∧ c'.last = lastOf last trees ∧
      Fit chunk.finish trees c'.rest (p chunk c).nodes ∧
      post a trees c'.rest (p chunk c).nodes

theorem fit_nil (finish : Pos) (rest : List Token) {nodes : List Node}
    (h : ArePlaced (OpensIn []) nodes) : Fit finish [] rest nodes :=
  ⟨List.nil_subset _, h⟩

theorem fit_leaf (finish : Pos) (t : Token) (rest : List Token) :
    Fit finish [.leaf t] rest [] :=
  ⟨List.nil_subset _, trivial⟩

namespace Grows

variable {chunk : Chunk} {ts : List Token} {past : Pos} {post : Post α}

theorem mono {p : Parser n α} {post' : Post α} (h : Grows chunk p ts past post)
    (himp : ∀ a trees rest nodes, ts = tokensAll trees ++ rest →
      post a trees rest nodes → post' a trees rest nodes) :
    Grows chunk p ts past post' := by
  intro c hrest hlast a c' hok
  obtain ⟨trees, htokens, hlast', hfit, hpost⟩ := h c hrest hlast a c' hok
  exact ⟨trees, htokens, hlast', hfit, himp _ _ _ _ htokens hpost⟩

theorem after {p : Parser n α} {past' : Pos} (h : Grows chunk p ts past' post)
    (hpast : past' = past) : Grows chunk p ts past post :=
  hpast ▸ h

theorem located {p : Parser n α}
    (h : Grows chunk p ts past fun a trees rest nodes => ts = tokensAll trees ++
      rest → post a trees rest nodes) :
    Grows chunk p ts past post :=
  h.mono fun _ _ _ _ htokens hpost => hpost htokens

theorem absurd {p : Parser 0 α} : Grows chunk p ts past post :=
  fun c => (Nat.not_lt_zero _ c.bound).elim

theorem pure {a : α} (h : post a [] ts []) :
    Grows chunk (Pure.pure a : Parser n α) ts past post := by
  rintro c rfl rfl _ _ hok
  cases hok
  exact ⟨[], rfl, rfl, fit_nil _ _ trivial, h⟩

theorem bind {p : Parser n α} {f : α → Parser n β} {post : Post β}
    (h : Grows chunk p ts past fun a trees mid nodes =>
      Grows chunk (f a) mid (lastOf past trees) fun b more rest nodes' =>
      post b (trees ++ more) rest (nodes ++ nodes')) :
    Grows chunk (p >>= f) ts past post := by
  intro c hrest hlast b c'' hok
  change (Parser.bind p f chunk c).result = _ at hok
  unfold Parser.bind at hok
  cases hfirst : (p chunk c).result with
  | error e => simp [hfirst] at hok
  | ok first =>
      obtain ⟨a, c'⟩ := first
      simp only [hfirst] at hok
      obtain ⟨trees, htokens, hlast', hfit, hmore⟩ := h c hrest hlast a c' hfirst
      obtain ⟨more, htokens', hlast'', hfit', hpost⟩ :=
        hmore c' rfl hlast' b c'' hok
      have hnodes : ((p >>= f) chunk c).nodes = (p chunk c).nodes ++
          (f a chunk c').nodes := by
        change (Parser.bind p f chunk c).nodes = _
        unfold Parser.bind
        simp only [hfirst]
      refine ⟨trees ++ more, ?_, ?_, ?_, ?_⟩
      · rw [htokens, htokens', tokensAll_append, List.append_assoc]
      · rw [hlast'', lastOf_append]
      · rw [hnodes]
        rw [htokens'] at hfit
        exact hfit.append hfit'
      · rw [hnodes]
        exact hpost

/-! ## Parsers that read nothing -/

theorem peek {post : Post (Option Token)} (h : post ts.head? [] ts []) :
    Grows chunk (Parser.peek : Parser n (Option Token)) ts past post := by
  rintro c rfl rfl _ _ hok
  cases hok
  exact ⟨[], rfl, rfl, fit_nil _ _ trivial, h⟩

theorem peekSecond {post : Post (Option Token)} (h : post ts.tail.head? [] ts []) :
    Grows chunk (Parser.peekSecond : Parser n (Option Token)) ts past post := by
  rintro c rfl rfl _ _ hok
  cases hok
  exact ⟨[], rfl, rfl, fit_nil _ _ trivial, h⟩

theorem here {post : Post Pos}
    (h : post ((ts.head?.map (·.pos)).getD chunk.finish) [] ts []) :
    Grows chunk (Parser.here : Parser n Pos) ts past post := by
  rintro c rfl rfl _ _ hok
  cases hok
  exact ⟨[], rfl, rfl, fit_nil _ _ trivial, h⟩

theorem last {post : Post Pos} (h : post past [] ts []) :
    Grows chunk (Parser.last : Parser n Pos) ts past post := by
  rintro c rfl rfl _ _ hok
  cases hok
  exact ⟨[], rfl, rfl, fit_nil _ _ trivial, h⟩

theorem errorHere {fault : SyntaxFault} {post : Post SyntaxError}
    (h : ∀ e, post e [] ts []) :
    Grows chunk (Parser.errorHere fault : Parser n SyntaxError) ts past post := by
  rintro c rfl rfl _ _ hok
  cases hok
  exact ⟨[], rfl, rfl, fit_nil _ _ trivial, h _⟩

theorem span {shape : ValueShape} {start : Pos} {post : Post Value}
    (h : post ((Value.ofToken shape chunk.source start).extend past) [] ts []) :
    Grows chunk (Parser.span shape start : Parser n Value) ts past post := by
  rintro c rfl rfl _ _ hok
  cases hok
  exact ⟨[], rfl, rfl, fit_nil _ _ trivial, h⟩

theorem emit {node : Node} {post : Post Unit}
    (hplaced : node.IsPlaced (OpensIn [])) (h : post () [] ts [node]) :
    Grows chunk (Parser.emit node : Parser n Unit) ts past post := by
  rintro c rfl rfl _ _ hok
  cases hok
  exact ⟨[], rfl, rfl, fit_nil _ _ ⟨hplaced, trivial⟩, h⟩

theorem nextIs {kind : TokenKind} {post : Post Bool}
    (h : post (ts.head?.any (·.kind == kind)) [] ts []) :
    Grows chunk (Parser.nextIs kind : Parser n Bool) ts past post :=
  bind (peek (pure h))

/-! ## Parsers that fail -/

theorem throw {e : SyntaxError} :
    Grows chunk (Parser.throw e : Parser n α) ts past post :=
  fun _ _ _ _ _ hok => nomatch hok

theorem failAt {t : Option Token} {fault : SyntaxFault} :
    Grows chunk (Parser.failAt t fault : Parser n α) ts past post :=
  fun _ _ _ _ _ hok => nomatch hok

theorem fail {fault : SyntaxFault} :
    Grows chunk (Parser.fail fault : Parser n α) ts past post :=
  fun _ _ _ _ _ hok => nomatch hok

theorem missing {closer opener : TokenKind} {what : Expected} {line : Nat}
    {post : Post Unit} :
    Grows chunk (Parser.missing closer what opener line : Parser n Unit)
      ts past post := by
  refine bind (here ?_)
  split
  · exact fail
  · exact fail

/-! ## Parsers that take a token away -/

theorem skip {t : Token} {post : Post Unit} (h : post () [.leaf t] ts []) :
    Grows chunk (Parser.skip : Parser n Unit) (t :: ts) past post := by
  rintro c hrest rfl _ _ hok
  cases hok
  have htail : c.tail.rest = ts ∧ c.tail.last = t.pos := by
    unfold Cursor.tail
    split
    next hnil => simp [hnil] at hrest
    next hcons =>
      obtain ⟨rfl, rfl⟩ := List.cons.inj (hcons.symm.trans hrest)
      exact ⟨rfl, rfl⟩
  refine ⟨[.leaf t], ?_, ?_, fit_leaf _ _ _, ?_⟩
  · rw [htail.1]
    rfl
  · exact htail.2
  · rw [htail.1]
    exact h

theorem accept {kind : TokenKind} {post : Post Bool}
    (htrue : ∀ t rest, ts = t :: rest → t.kind = kind →
      post true [.leaf t] rest [])
    (hfalse : post false [] ts []) :
    Grows chunk (Parser.accept kind : Parser n Bool) ts past post := by
  refine bind (nextIs ?_)
  cases ts with
  | nil => exact pure hfalse
  | cons t rest =>
      by_cases hkind : t.kind = kind
      · simp only [List.head?_cons, Option.any_some, hkind, BEq.rfl, if_true]
        exact bind (skip (pure (htrue t rest rfl hkind)))
      · have hne : (t.kind == kind) = false := by simpa using hkind
        simp only [List.head?_cons, Option.any_some, hne,
          Bool.false_eq_true, if_false]
        exact pure hfalse

theorem expectSymbol {sign : Symbol} {post : Post Unit}
    (h : ∀ t rest, ts = t :: rest → t.kind = .symbol sign →
      post () [.leaf t] rest []) :
    Grows chunk (Parser.expectSymbol sign : Parser n Unit) ts past post :=
  bind (accept (fun t rest hts hkind => pure (h t rest hts hkind)) fail)

theorem expectKeyword {word : Keyword} {post : Post Unit}
    (h : ∀ t rest, ts = t :: rest → t.kind = .keyword word →
      post () [.leaf t] rest []) :
    Grows chunk (Parser.expectKeyword word : Parser n Unit) ts past post :=
  bind (accept (fun t rest hts hkind => pure (h t rest hts hkind)) fail)

theorem closeSymbol {sign opener : Symbol} {line : Nat} {post : Post Unit}
    (h : ∀ t rest, ts = t :: rest → t.kind = .symbol sign →
      post () [.leaf t] rest []) :
    Grows chunk (Parser.closeSymbol sign opener line : Parser n Unit)
      ts past post :=
  bind (accept (fun t rest hts hkind => pure (h t rest hts hkind)) missing)

theorem closeKeyword {word opener : Keyword} {line : Nat} {post : Post Unit}
    (h : ∀ t rest, ts = t :: rest → t.kind = .keyword word →
      post () [.leaf t] rest []) :
    Grows chunk (Parser.closeKeyword word opener line : Parser n Unit)
      ts past post :=
  bind (accept (fun t rest hts hkind => pure (h t rest hts hkind)) missing)

theorem expectName {post : Post Ident}
    (h : ∀ t rest, ts = t :: rest → t.kind = .name →
      post ⟨t.value, t.pos⟩ [.leaf t] rest []) :
    Grows chunk (Parser.expectName : Parser n Ident) ts past post := by
  refine bind (peek ?_)
  cases ts with
  | nil => exact fail
  | cons t rest =>
      simp only [List.head?_cons]
      split
      next hkind => exact bind (skip (pure (h t rest rfl hkind)))
      next => exact fail

theorem onToken {f : Token → Option (Parser n α)} {otherwise : Parser (n + 1) α}
    (hcons : ∀ t rest, ts = t :: rest → ∀ p, f t = some p →
      Grows chunk p rest t.pos fun a trees rest' nodes =>
        post a (.leaf t :: trees) rest' nodes)
    (hother : Grows chunk otherwise ts past post) :
    Grows chunk (Parser.onToken f otherwise) ts past post := by
  intro c hrest hlast a c' hok
  cases ts with
  | nil =>
      rw [onToken_of_nil hrest] at hok ⊢
      exact hother c hrest hlast a c' hok
  | cons t rest =>
      cases hf : f t with
      | none =>
          rw [onToken_of_none hrest hf] at hok ⊢
          exact hother c hrest hlast a c' hok
      | some p =>
          obtain ⟨hbound, heq⟩ := onToken_of_some chunk hrest hf
          rw [heq] at hok ⊢
          cases hresult : (p chunk ⟨rest, t.pos, hbound⟩).result with
          | error e => simp [Outcome.weaken, hresult, Except.map] at hok
          | ok r =>
              obtain ⟨a', c''⟩ := r
              simp only [Outcome.weaken, hresult, Except.map, Except.ok.injEq,
                Prod.mk.injEq] at hok
              obtain ⟨rfl, rfl⟩ := hok
              obtain ⟨trees, htokens, hlast', hfit, hpost⟩ :=
                hcons t rest rfl p hf _ rfl rfl _ _ hresult
              refine ⟨.leaf t :: trees, ?_, ?_,
                (fit_leaf chunk.finish t _).append hfit, hpost⟩
              · rw [htokens]
                rfl
              · exact hlast'.trans (lastOf_append past [.leaf t] trees)

/-! ## Nodes around nodes -/

theorem wrap {p : Parser n α} {f : List Node → Option α → List Node}
    (h : Grows chunk p ts past fun a trees rest nodes =>
      (Fit chunk.finish trees rest nodes →
        Fit chunk.finish trees rest (f nodes (some a))) ∧
        post a trees rest (f nodes (some a))) :
    Grows chunk (p.wrap f) ts past post := by
  intro c hrest hlast a c' hok
  obtain ⟨trees, htokens, hlast', hfit, hwrapped, hpost⟩ :=
    h c hrest hlast a c' hok
  have hnodes : (p.wrap f chunk c).nodes = f (p chunk c).nodes (some a) := by
    have hvalue : (p chunk c).result = .ok (a, c') := hok
    simp [Parser.wrap, hvalue, Except.toOption]
  rw [hnodes]
  exact ⟨trees, htokens, hlast', hwrapped hfit, hpost⟩

theorem within {p : Parser n α} {f : List Node → Node}
    (hstops : ∀ nodes, (f nodes).offsets = offsetsIn nodes)
    (hplaced : ∀ opens nodes, ArePlaced opens nodes → (f nodes).IsPlaced opens)
    (h : Grows chunk p ts past fun a trees rest nodes =>
      post a trees rest [f nodes]) :
    Grows chunk (p.within f) ts past post := by
  refine wrap (h.mono fun a trees rest nodes _ hpost =>
    ⟨fun hfit => ⟨?_, ?_⟩, hpost⟩)
  · rw [offsetsIn, hstops, offsetsIn, List.append_nil]
    exact hfit.spots
  · exact ⟨hplaced _ _ hfit.placed, trivial⟩

theorem arrange {p : Parser n α}
    (h : Grows chunk p ts past fun a trees rest nodes =>
      ∃ row, tokensAll row = tokensAll trees ∧
        (Fit chunk.finish trees rest nodes → Fit chunk.finish row rest nodes) ∧
        post a row rest nodes) :
    Grows chunk p ts past post := by
  intro c hrest hlast a c' hok
  obtain ⟨trees, htokens, hlast', hfit, row, hsame, hfits, hpost⟩ :=
    h c hrest hlast a c' hok
  refine ⟨row, ?_, ?_, hfits hfit, hpost⟩
  · rw [hsame]
    exact htokens
  · rw [hlast', lastOf, lastOf, hsame]

theorem group {p : Parser n α} {post : α → Tree → List Token → List Node → Prop}
    (h : Grows chunk p ts past fun a trees rest nodes =>
      ∃ tree, Regroups [tree] trees ∧ post a tree rest nodes) :
    Grows chunk p ts past fun a trees rest nodes => ∃ tree, trees = [tree] ∧
    post a tree rest nodes := by
  refine arrange (h.mono fun a trees rest nodes _ hpost => ?_)
  obtain ⟨tree, hgroup, hpost⟩ := hpost
  exact ⟨[tree], hgroup.tokens, hgroup.fit, tree, rfl, hpost⟩

theorem node {p : Parser n α} {post : α → Tree → List Token → List Node → Prop}
    (phrase : Phrase) (hphrase : phrase ≠ .block)
    (h : Grows chunk p ts past fun a trees rest nodes =>
      post a (.node phrase trees) rest nodes) :
    Grows chunk p ts past fun a trees rest nodes => ∃ tree, trees = [tree] ∧
    post a tree rest nodes :=
  group (h.mono fun _ trees _ _ _ hpost => ⟨_, .node phrase trees hphrase, hpost⟩)

end Grows

end Parser

end LuaGloss

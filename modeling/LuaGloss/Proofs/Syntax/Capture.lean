import LuaGloss.Proofs.Syntax.Arrangement
import LuaGloss.Proofs.Token.Delimiting

/-!
# What the value of an expression captures

The value that is read for an expression covers its tokens from the first to the
last, and its shape can be told from the tokens alone.  That an expression is
nothing but a function or a table constructor is told by where the `end` or the
brace stands that matches the first token: words and brackets that open
something and those that close it are balanced in every tree, so no other tree
of the same tokens ends earlier.
-/

namespace LuaGloss

/-! ## Balance -/

namespace TokenKind

def isOpener : TokenKind → Bool
  | .keyword .function_ | .keyword .do_ | .keyword .if_ | .keyword .repeat_
  | .symbol .leftParen | .symbol .leftBrace
  | .symbol .leftBracket => true
  | _ => false

def isCloser : TokenKind → Bool
  | .keyword .end_ | .keyword .until_ | .symbol .rightParen
  | .symbol .rightBrace | .symbol .rightBracket => true
  | _ => false

/-- The number of open constructs behind a token, if there are `d + 1` before
it. -/
def nesting (k : TokenKind) (d : Nat) : Nat :=
  if k.isOpener then d + 2 else if k.isCloser then d else d + 1

theorem nesting_of_mem {k : TokenKind}
    (h : k ∈ atoms ++ unaryOperators ++ binaryOperators) (d : Nat) :
    k.nesting d = d + 1 := by
  have hplain : ∀ k ∈ atoms ++ unaryOperators ++ binaryOperators, k.isOpener =
      false ∧ k.isCloser = false := by decide
  simp [nesting, hplain k h]

end TokenKind

def leave : Nat → List Token → List Token
  | 0, ts => ts
  | _ + 1, [] => []
  | d + 1, t :: ts => leave (t.kind.nesting d) ts

@[simp] theorem leave_zero (ts : List Token) : leave 0 ts = ts := by rw [leave]

/-- The same as for tokens: the `end` of a function belongs to its body, the
word `function` does not. -/
def Phrase.nesting (p : Phrase) (d : Nat) : Nat := if p = .body then d else d + 1

namespace Sym

def nesting : Sym → Nat → Nat
  | token k, d => k.nesting d
  | phrase p, d => p.nesting d

/-- The number of open constructs behind a row of symbols; there is none unless
one is open before each of them. -/
def nestingAll : List Sym → Nat → Option Nat
  | [], d => some d
  | _ :: _, 0 => none
  | sym :: syms, d + 1 => nestingAll syms (sym.nesting d)

end Sym

theorem Production.nesting {p : Phrase} {syms : List Sym}
    (h : Production p syms) (d : Nat) :
    Sym.nestingAll syms (d + 1) = some (p.nesting d) := by
  cases h with
  | @atom k hk =>
      have hplain : k.nesting d = d + 1 :=
        TokenKind.nesting_of_mem (by simp [hk]) d
      exact congrArg some hplain
  | @unary op hop =>
      have hplain : op.nesting d = d + 1 :=
        TokenKind.nesting_of_mem (by simp [hop]) d
      exact congrArg (Sym.nestingAll [.phrase .expression]) hplain
  | @binary op hop =>
      have hplain : op.nesting d = d + 1 :=
        TokenKind.nesting_of_mem (by simp [hop]) d
      exact congrArg (Sym.nestingAll [.phrase .expression]) hplain
  | entries hsep => rcases hsep with rfl | rfl <;> rfl
  | _ => rfl

namespace Tree

theorem Spells.leave {children : List Tree} {syms : List Sym}
    (h : Spells children syms)
    (hchildren : ∀ c ∈ children, ∀ p, c.IsA p →
      ∀ d ts, leave (d + 1) (c.tokens ++ ts) = leave (p.nesting d) ts)
    {d d' : Nat} (hnesting : Sym.nestingAll syms d = some d') (ts : List Token) :
    LuaGloss.leave d (tokensAll children ++ ts) = LuaGloss.leave d' ts := by
  induction syms generalizing children d with
  | nil =>
      obtain rfl := spells_nil.1 h
      obtain rfl : d = d' := by simpa [Sym.nestingAll] using hnesting
      rfl
  | cons sym syms ih =>
      cases d with
      | zero => simp [Sym.nestingAll] at hnesting
      | succ d =>
          rw [Sym.nestingAll] at hnesting
          cases h with
          | token hkind hrest =>
              have hmore :=
                ih hrest (fun c hc =>
                  hchildren c (List.mem_cons_of_mem _ hc)) hnesting
              rw [Sym.nesting, ← hkind] at hmore
              exact hmore
          | phrase hc hrest =>
              rw [tokensAll, List.append_assoc,
                hchildren _ List.mem_cons_self _ hc]
              exact ih hrest (fun c hc =>
                hchildren c (List.mem_cons_of_mem _ hc)) hnesting

/-- Every tree is balanced. -/
theorem IsA.leave {tree : Tree} {p : Phrase} (h : tree.IsA p) (d : Nat)
    (ts : List Token) :
    LuaGloss.leave (d + 1)
      (tree.tokens ++ ts) = LuaGloss.leave (p.nesting d) ts := by
  induction tree using Tree.induct generalizing p d ts with
  | leaf t => simp at h
  | node q children ih =>
      obtain ⟨rfl, syms, hproduction, hspells⟩ := isA_node.1 h
      exact hspells.leave (fun c hc p hp d ts => ih c hc hp d ts)
        (hproduction.nesting d) ts

theorem IsA.body_eq_nil {body body' : Tree} {more : List Token}
    (h : body.IsA .body) (h' : body'.IsA .body)
    (htokens : body.tokens = body'.tokens ++ more) : more = [] := by
  have hwhole := h.leave 0 []
  rw [List.append_nil, htokens, h'.leave 0 more] at hwhole
  simpa [Phrase.nesting] using hwhole

theorem IsA.table_eq_nil {table table' : Tree} {more : List Token}
    (h : table.IsA .table) (h' : table'.IsA .table)
    (htokens : table.tokens = table'.tokens ++ more) : more = [] := by
  -- behind the opening brace only one brace is left open
  have hinside {tree : Tree} (h : tree.IsA .table) :
      ∃ t inside, tree.tokens = t :: inside ∧
      ∀ ts, LuaGloss.leave 1 (inside ++ ts) = ts := by
    cases h with
    | node hproduction hspells =>
        cases hproduction
        obtain ⟨t, row, rfl, -, hrow⟩ := spells_token.1 hspells
        refine ⟨t, tokensAll row, rfl, fun ts => ?_⟩
        have hrest :=
          hrow.leave (fun c _ p hp d ts => hp.leave d ts) (d := 1) rfl ts
        exact hrest.trans (leave_zero ts)
  obtain ⟨t, inside, htable, hleave⟩ := hinside h
  obtain ⟨t', inside', htable', hleave'⟩ := hinside h'
  rw [htable, htable', List.cons_append] at htokens
  have hwhole := hleave []
  rw [List.append_nil, (List.cons.inj htokens).2, hleave'] at hwhole
  exact hwhole

end Tree

/-! ## Telling the shape by the tokens -/

theorem NameChain.unique {ts : List Token} {names names' : List Bytes}
    (h : NameChain ts names) (h' : NameChain ts names') : names = names' := by
  induction h generalizing names' with
  | name =>
      cases h'
      rfl
  | dot _ _ hmore ih =>
      cases h' with
      | dot _ _ hmore' => rw [ih hmore']

namespace TokenKind

def constants : List TokenKind :=
  [.number, .string, .keyword .nil_, .keyword .true_, .keyword .false_]

theorem mem_constants {k : TokenKind} : k ∈ constants ↔ k.isConstant = true := by
  cases k with
  | keyword word => cases word <;> decide
  | symbol sign => cases sign <;> decide
  | comment form => cases form <;> decide
  | _ => decide

end TokenKind

namespace Token

/-- Whether tokens are a number, a string, `nil`, `true` or `false` and nothing
else. -/
def AreConstant (ts : List Token) : Prop :=
  ∃ t, ts = [t] ∧ t.kind ∈ TokenKind.constants

/-- Whether tokens are a function and nothing else: the word `function`,
parameters and a block up to its `end`. -/
def AreFunction (ts : List Token) : Prop :=
  ∃ (t : Token) (body : Tree), ts = t :: body.tokens ∧
  t.kind = .keyword .function_ ∧ body.IsA .body

/-- Whether tokens are a table constructor and nothing else. -/
def AreTable (ts : List Token) : Prop :=
  ∃ tree : Tree, ts = tree.tokens ∧ tree.IsA .table

variable {ts : List Token} {k : TokenKind}

theorem AreConstant.head (h : AreConstant ts) :
    ∃ k ∈ TokenKind.constants, ts.head?.map (·.kind) = some k := by
  obtain ⟨t, rfl, ht⟩ := h
  exact ⟨t.kind, ht, rfl⟩

theorem AreFunction.head (h : AreFunction ts) :
    ts.head?.map (·.kind) = some (.keyword .function_) := by
  obtain ⟨t, body, rfl, ht, -⟩ := h
  simp [ht]

theorem AreTable.head (h : AreTable ts) :
    ts.head?.map (·.kind) = some (.symbol .leftBrace) := by
  obtain ⟨tree, rfl, htree⟩ := h
  obtain ⟨t, more, htokens, ht⟩ := htree.table_tokens
  simp [htokens, ht]

theorem head_of_nameChain {names : List Bytes} (h : NameChain ts names) :
    ts.head?.map (·.kind) = some .name := by
  obtain ⟨t, more, rfl, ht⟩ := h.head
  simp [ht]

/-- The shape of an expression with the given tokens, and the dotted name if it
is a reference. -/
inductive Tell : List Token → ValueShape → Bytes → Prop
  | constant {ts : List Token} : AreConstant ts → Tell ts .constant []
  | function {ts : List Token} {signature : Signature} :
      AreFunction ts → Tell ts (.function signature) []
  | table {ts : List Token} : AreTable ts → Tell ts (.table none) []
  | reference {ts : List Token} {names : List Bytes} : NameChain ts names →
      Tell ts .reference (Bytes.join (utf8 ".") names)
  | expression {ts : List Token} :
      ¬AreConstant ts → ¬AreFunction ts → ¬AreTable ts →
      (∀ names, ¬NameChain ts names) →
      Tell ts .expression []

namespace Tell

variable {shape : ValueShape} {ref : Bytes}

theorem of_head (hhead : ts.head?.map (·.kind) = some k)
    (hk : k ∉ .keyword .function_ :: .symbol .leftBrace :: TokenKind.constants)
    (hnames : k = .name → ∀ names, ¬NameChain ts names) :
    Tell ts .expression [] := by
  simp only [List.mem_cons, not_or] at hk
  obtain ⟨hfunction, hbrace, hconstant⟩ := hk
  refine .expression ?_ ?_ ?_ ?_
  · intro h
    obtain ⟨k', hk', hhead'⟩ := h.head
    obtain rfl : k = k' := Option.some.inj (hhead.symm.trans hhead')
    exact hconstant hk'
  · intro h
    exact hfunction (Option.some.inj (hhead.symm.trans h.head))
  · intro h
    exact hbrace (Option.some.inj (hhead.symm.trans h.head))
  · intro names h
    exact hnames (Option.some.inj (hhead.symm.trans (head_of_nameChain h))) names h

theorem constant_iff (h : Tell ts shape ref) :
    shape = .constant ↔ AreConstant ts := by
  constructor
  · rintro rfl
    cases h
    assumption
  · intro hconstant
    obtain ⟨k, hk, hhead⟩ := hconstant.head
    cases h with
    | constant => rfl
    | function hfunction =>
        simp [← Option.some.inj (hfunction.head.symm.trans hhead),
          TokenKind.constants] at hk
    | table htable =>
        simp [← Option.some.inj (htable.head.symm.trans hhead),
          TokenKind.constants] at hk
    | reference hnames =>
        simp [← Option.some.inj ((head_of_nameChain hnames).symm.trans hhead),
          TokenKind.constants] at hk
    | expression hother => exact absurd hconstant hother

theorem reference_iff (h : Tell ts shape ref) :
    shape = .reference ↔ ∃ names, NameChain ts names := by
  constructor
  · rintro rfl
    cases h with
    | reference hnames => exact ⟨_, hnames⟩
  · rintro ⟨names, hnames⟩
    have hhead := head_of_nameChain hnames
    cases h with
    | constant hconstant =>
        obtain ⟨k, hk, hhead'⟩ := hconstant.head
        simp [← Option.some.inj (hhead.symm.trans hhead'),
          TokenKind.constants] at hk
    | function hfunction => simp [hfunction.head] at hhead
    | table htable => simp [htable.head] at hhead
    | reference => rfl
    | expression _ _ _ hother => exact absurd hnames (hother names)

theorem ref_eq (h : Tell ts shape ref) {names : List Bytes}
    (hnames : NameChain ts names) : ref = Bytes.join (utf8 ".") names := by
  obtain rfl := h.reference_iff.2 ⟨names, hnames⟩
  cases h with
  | reference hnames' => rw [hnames'.unique hnames]

theorem function_iff (h : Tell ts shape ref) :
    (∃ signature, shape = .function signature) ↔ AreFunction ts := by
  constructor
  · rintro ⟨signature, rfl⟩
    cases h
    assumption
  · intro hfunction
    cases h with
    | constant hconstant =>
        obtain ⟨k, hk, hhead⟩ := hconstant.head
        simp [← Option.some.inj (hfunction.head.symm.trans hhead),
          TokenKind.constants] at hk
    | function => exact ⟨_, rfl⟩
    | table htable => simpa [htable.head] using hfunction.head
    | reference hnames => simpa [head_of_nameChain hnames] using hfunction.head
    | expression _ hother => exact absurd hfunction hother

theorem table_iff (h : Tell ts shape ref) :
    (∃ id, shape = .table id) ↔ AreTable ts := by
  constructor
  · rintro ⟨id, rfl⟩
    cases h
    assumption
  · intro htable
    cases h with
    | constant hconstant =>
        obtain ⟨k, hk, hhead⟩ := hconstant.head
        simp [← Option.some.inj (htable.head.symm.trans hhead),
          TokenKind.constants] at hk
    | function hfunction => simpa [hfunction.head] using htable.head
    | table => exact ⟨_, rfl⟩
    | reference hnames => simpa [head_of_nameChain hnames] using htable.head
    | expression _ _ hother => exact absurd htable hother

theorem expression_iff (h : Tell ts shape ref) :
    shape = .expression ↔
      ¬AreConstant ts ∧ (¬∃ names, NameChain ts names) ∧ ¬AreFunction ts ∧
      ¬AreTable ts := by
  constructor
  · rintro rfl
    cases h with
    | expression hconstant hfunction htable hnames =>
        exact ⟨hconstant, fun ⟨names, hchain⟩ => hnames names hchain,
          hfunction, htable⟩
  · rintro ⟨hconstant, hnames, hfunction, htable⟩
    cases h with
    | constant h => exact absurd h hconstant
    | function h => exact absurd h hfunction
    | table h => exact absurd h htable
    | reference h => exact absurd ⟨_, h⟩ hnames
    | expression => rfl

end Tell

end Token

namespace Tree

open LuaGloss.Token

/-- An expression with something behind it is no table constructor alone, even
if it is one itself. -/
theorem Begins.not_areTable {ts : List Token} (h : Begins ts) (t : Token)
    (more : List Token) : ¬AreTable (ts ++ t :: more) := by
  rintro ⟨table, htokens, htable⟩
  obtain ⟨u, inside, hinside, hu⟩ := htable.table_tokens
  rw [hinside] at htokens
  cases h with
  | table htable' =>
      rw [← hinside, List.append_assoc] at htokens
      have hnothing := htable.table_eq_nil htable' htokens.symm
      simp at hnothing
  | function ht =>
      obtain ⟨rfl, -⟩ := List.cons.inj htokens
      simp [ht] at hu
  | other hbrace =>
      obtain ⟨rfl, -⟩ := List.cons.inj htokens
      exact hbrace hu

theorem Begins.not_areFunction {ts : List Token} (h : Begins ts) (t : Token)
    (more : List Token) : ¬AreFunction (ts ++ t :: more) := by
  rintro ⟨u, body, htokens, hu, hbody⟩
  cases h with
  | table htable =>
      obtain ⟨brace, inside, hinside, hbrace⟩ := htable.table_tokens
      rw [hinside] at htokens
      obtain ⟨rfl, -⟩ := List.cons.inj htokens
      simp [hbrace] at hu
  | function _ hbody' =>
      obtain ⟨-, htail⟩ := List.cons.inj htokens
      have hnothing :=
        hbody.body_eq_nil hbody' (htail.symm.trans (List.append_assoc _ _ _))
      simp at hnothing
  | other _ hfunction =>
      obtain ⟨rfl, -⟩ := List.cons.inj htokens
      exact hfunction hu

theorem Begins.tell {ts : List Token} (h : Begins ts) {t : Token}
    (hop : t.kind ∈ TokenKind.binaryOperators) (right : List Token) :
    Tell (ts ++ t :: right) .expression [] := by
  refine .expression ?_ (h.not_areFunction t right) (h.not_areTable t right) ?_
  · rintro ⟨u, htokens, -⟩
    have hlength := congrArg List.length htokens
    have hpos := List.length_pos_iff.2 h.ne_nil
    simp only [List.length_append, List.length_cons, List.length_nil] at hlength
    omega
  · intro names hnames
    rcases hnames.kind t (by simp) with hname | hdot
    · simp [hname, TokenKind.binaryOperators] at hop
    · simp [hdot, TokenKind.binaryOperators] at hop

theorem Shapes.tell {tree : Tree} {shape : ValueShape} {ref : Bytes}
    (h : tree.Shapes shape ref) : Tell tree.tokens shape ref := by
  -- the tokens of a root with one child
  have hsingle (c : Tree) : (node .expression [c]).tokens = c.tokens :=
    List.append_nil _
  cases h with
  | constant ht => exact .constant ⟨_, rfl, TokenKind.mem_constants.2 ht⟩
  | varargs ht => exact .of_head (congrArg some ht) (by decide) (by simp)
  | @table c hc =>
      rw [hsingle]
      exact .table ⟨c, rfl, hc⟩
  | @function t c _ ht hc =>
      exact .function ⟨t, c, by simp [tokens, tokensAll], ht, hc⟩
  | @names c names hnames =>
      rw [hsingle]
      exact .reference hnames
  | @suffixed c form hc hnames =>
      rw [hsingle]
      obtain ⟨t, more, htokens, ht⟩ := hc.suffixed_tokens
      have hhead : c.tokens.head?.map (·.kind) = some t.kind := by simp [htokens]
      refine .of_head hhead ?_ fun _ => hnames
      rcases ht with hname | hparen
      · simp [hname, TokenKind.constants]
      · simp [hparen, TokenKind.constants]
  | @unary t c ht =>
      have hhead : (node .expression [leaf t, c]).tokens.head?.map (·.kind) =
          some t.kind := rfl
      have hplain : ∀ k ∈ TokenKind.unaryOperators,
          k ∉ .keyword .function_ :: .symbol .leftBrace :: TokenKind.constants ∧
          k ≠ .name := by decide
      exact .of_head hhead (hplain _ ht).1 fun hname =>
        absurd hname (hplain _ ht).2
  | @binary t left right hleft ht =>
      have htokens : (node .expression [left, leaf t, right]).tokens =
          left.tokens ++ t :: right.tokens := by
        simp [tokens, tokensAll]
      rw [htokens]
      exact hleft.begins.tell ht right.tokens

end Tree

/-! ## Spans -/

namespace Token

/-- Whether tokens stand in the source one behind the other. -/
structure InOrder (source : Bytes) (ts : List Token) : Prop where
  pairwise : ts.Pairwise fun t u => t.pos.stop ≤ u.pos.offset
  stop_le : ∀ t ∈ ts, t.pos.stop ≤ source.length

variable {source : Bytes} {ts : List Token}

theorem inOrder_of_sublist (h : ts.Sublist (tokenize source)) :
    InOrder source ts := by
  have hreads := Scanner.reads_ofSource source
  have htiles : (Scanner.ofSource source).Tiles (tokenize source) :=
    Scanner.tiles_tokensOn _
  refine ⟨(htiles.pairwise hreads).sublist h, ?_⟩
  intro t ht
  exact (htiles.bounds hreads t (h.subset ht)).2.2

namespace InOrder

theorem sublist (h : InOrder source ts) {taken : List Token}
    (hsub : taken.Sublist ts) : InOrder source taken :=
  ⟨h.pairwise.sublist hsub, fun t ht => h.stop_le t (hsub.subset ht)⟩

theorem le_getLast (h : InOrder source ts) {first last : Token}
    (hfirst : ts.head? = some first) (hlast : ts.getLast? = some last) :
    first.pos.offset ≤ last.pos.offset ∧ first.pos.stop ≤ last.pos.stop := by
  have hself (t : Token) : t.pos.offset ≤ t.pos.stop := Nat.le_add_right _ _
  cases ts with
  | nil => simp at hfirst
  | cons t more =>
      obtain rfl : t = first := by simpa using hfirst
      by_cases hmore : more = []
      · obtain rfl : t = last := by simpa [hmore] using hlast
        exact ⟨Nat.le_refl _, Nat.le_refl _⟩
      · have hmem : last ∈ more := by
          rw [List.getLast?_cons_of_ne_nil hmore] at hlast
          exact List.mem_of_getLast? hlast
        have hbefore := List.rel_of_pairwise_cons h.pairwise hmem
        have hfirstSelf := hself t
        have hlastSelf := hself last
        omega

end InOrder

end Token

/-- The value that covers a tree whose tokens are in order. -/
theorem Tree.covering_inOrder {source : Bytes} {tree : Tree}
    {shape : ValueShape} (ref : Bytes) (hshape : shape ≠ .empty)
    (horder : Token.InOrder source tree.tokens) {first last : Token}
    (hfirst : tree.tokens.head? = some first)
    (hlast : tree.tokens.getLast? = some last) :
    (tree.covering source shape ref).start = first.pos.offset ∧
      (tree.covering source shape ref).stop = last.pos.stop ∧
      (tree.covering source shape ref).text =
        source.slice first.pos.offset last.pos.stop := by
  obtain ⟨hoffset, hstop⟩ := horder.le_getLast hfirst hlast
  have hwithin := horder.stop_le last (List.mem_of_getLast? hlast)
  have hself : last.pos.offset ≤ last.pos.stop := Nat.le_add_right _ _
  have hvalue : tree.covering source shape ref =
      ⟨shape, first.pos.offset, last.pos.stop, ref, source⟩ := by
    simp only [Tree.covering, Tree.first, Tree.last, hfirst, hlast,
      Option.map_some, Option.getD_some, Value.ofToken, Value.ofSpan,
      Value.extend, Value.extendTo, Value.isEmpty, beq_iff_eq, hshape, if_false,
      Value.mk.injEq, true_and, and_true]
    omega
  rw [hvalue]
  refine ⟨rfl, rfl, ?_⟩
  simp only [Value.text, Value.isEmpty, beq_eq_false_iff_ne.2 hshape,
    Bool.false_or]
  rw [if_neg]
  · rfl
  · simp only [Bool.or_eq_true, decide_eq_true_eq]
    omega

namespace Grammar

open LuaGloss.Token

/-- The value that a parser reads for an expression covers the tokens that it
took away, and its shape and reference are told by them. -/
theorem expression_captures_tokens {n limit : Nat} {owned : Bool}
    {source : Bytes} {finish : Pos} {c c' : Cursor n} {v : Value}
    (horder : InOrder source c.rest)
    (hread : ((upTo n).expression limit owned ⟨source, finish⟩ c).result =
      .ok (v, c')) :
    ∃ (taken : List Token) (first last : Token),
      c.rest = taken ++ c'.rest ∧ taken.head? = some first ∧
      taken.getLast? = some last ∧
      v.start = first.pos.offset ∧ v.stop = last.pos.stop ∧
      v.text = source.slice first.pos.offset last.pos.stop ∧
      (v.shape = .constant ↔ AreConstant taken) ∧
      (v.shape = .reference ↔ ∃ names, NameChain taken names) ∧
      (∀ names, NameChain taken names → v.ref = Bytes.join (utf8 ".") names) ∧
      (v.isFunction = true ↔ AreFunction taken) ∧
      (v.isTable = true ↔ AreTable taken) ∧
      (v.shape = .expression ↔
        ¬AreConstant taken ∧ (¬∃ names, NameChain taken names) ∧
        ¬AreFunction taken ∧ ¬AreTable taken) := by
  obtain ⟨_, htokens, -, -, tree, rfl, hyields⟩ :=
    (arranges_upTo n ⟨source, finish⟩).expression limit owned c.rest c.last c
      rfl rfl v c' hread
  obtain ⟨shape, ref, hshapes, rfl⟩ := hyields.denotes
  have htell := hshapes.tell
  have hne : tree.tokens ≠ [] := hyields.isA.tokens_ne_nil
  rw [Tree.tokensAll, Tree.tokensAll, List.append_nil] at htokens
  have hinside : InOrder source tree.tokens := horder.sublist (by simp [htokens])
  have hfirst := List.head?_eq_some_head hne
  have hlast := List.getLast?_eq_some_getLast hne
  obtain ⟨hstart, hstop, htext⟩ :=
    Tree.covering_inOrder ref hshapes.ne_empty hinside hfirst hlast
  have hshape : (tree.covering source shape ref).shape = shape := by
    unfold Tree.covering Value.extend Value.extendTo
    split <;> rfl
  refine ⟨tree.tokens, _, _, htokens, hfirst, hlast, hstart, hstop, htext, ?_,
    ?_, ?_, ?_, ?_, ?_⟩
  · rw [hshape]
    exact htell.constant_iff
  · rw [hshape]
    exact htell.reference_iff
  · intro names hnames
    exact htell.ref_eq hnames
  · rw [← htell.function_iff, Value.isFunction, hshape]
    cases shape <;> simp
  · rw [← htell.table_iff, Value.isTable, hshape]
    cases shape <;> simp
  · rw [hshape]
    exact htell.expression_iff

/-- A table constructor with an operator behind it, and a statement behind
that. -/
private def captureSample : Bytes := utf8 "\x7bx = function() end\x7d .. a.b y = 1"

private def captureCursor : Cursor 20 :=
  ⟨grammarTokens captureSample, .none, by decide +kernel⟩

/-- The value begins with a table constructor and is none; it ends before the
statement. -/
theorem expression_captures_tokens_sample :
    InOrder captureSample captureCursor.rest ∧
      ∃ (v : Value) (c' : Cursor 20) (taken : List Token),
        ((upTo 20).expression 0 true ⟨captureSample, .none⟩
          captureCursor).result = .ok (v, c') ∧
          captureCursor.rest = taken ++ c'.rest ∧ v.shape = .expression ∧
          ¬AreTable taken := by
  have horder : InOrder captureSample captureCursor.rest :=
    inOrder_of_sublist List.filter_sublist
  cases hread :
    ((upTo 20).expression 0 true ⟨captureSample, .none⟩ captureCursor).result with
  | error e =>
      have hok :
          ((upTo 20).expression 0 true ⟨captureSample, .none⟩
            captureCursor).result.toOption.isSome = true := by
        decide +kernel
      simp [hread, Except.toOption] at hok
  | ok read =>
      obtain ⟨v, c'⟩ := read
      have hshape :
          (((upTo 20).expression 0 true ⟨captureSample, .none⟩
            captureCursor).result.toOption.map
          fun read => read.1.shape) = some .expression := by decide +kernel
      have hexpression : v.shape = .expression := by
        simpa [hread, Except.toOption] using hshape
      obtain ⟨taken, first, last, htaken, -, -, -, -, -, -, -, -, -, -, htell⟩ :=
        expression_captures_tokens horder hread
      exact ⟨horder, v, c', taken, rfl, htaken, hexpression,
        (htell.1 hexpression).2.2.2⟩

end Grammar

end LuaGloss

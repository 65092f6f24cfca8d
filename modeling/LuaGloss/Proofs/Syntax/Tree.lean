import LuaGloss.Proofs.Syntax.Derivation

/-!
# Syntax trees

The grammar once more, this time by productions, so that the tokens of a source
can be arranged in a tree.  A tree says where a statement, a block or an entry
of a table constructor begins and ends; a derivation only says that there is
one.

How tightly operators bind is left open: an expression with several of them has
several trees.  The reserved words and brackets that open something and those
that close it are balanced in every tree, which tells where a function or a
table constructor ends without a look at what is inside.
-/

namespace LuaGloss

/-- What stands on the right of a production. -/
inductive Sym where
  | token (kind : TokenKind)
  | phrase (p : Phrase)
  deriving DecidableEq

inductive Production : Phrase → List Sym → Prop where
  -- blocks
  | blockEnd : Production .block []
  | blockStatement : Production .block [.phrase .statement, .phrase .block]
  | blockReturn : Production .block [.token (.keyword .return_), .phrase .result]
  | resultNone : Production .result []
  | resultSemicolon : Production .result [.token (.symbol .semicolon)]
  | resultValues : Production .result [.phrase .values]
  | resultValuesSemicolon :
      Production .result [.phrase .values, .token (.symbol .semicolon)]
  -- statements
  | empty : Production .statement [.token (.symbol .semicolon)]
  | assign :
      Production .statement
        [.phrase (.suffixed .variable_), .phrase .moreVariables,
          .token (.symbol .assign), .phrase .values]
  | callStatement : Production .statement [.phrase (.suffixed .call)]
  | label :
      Production .statement [.token (.symbol .doubleColon), .token .name,
        .token (.symbol .doubleColon)]
  | break_ : Production .statement [.token (.keyword .break_)]
  | goto_ : Production .statement [.token (.keyword .goto_), .token .name]
  | do_ :
      Production .statement [.token (.keyword .do_), .phrase .block,
        .token (.keyword .end_)]
  | while_ :
      Production .statement
        [.token (.keyword .while_), .phrase .expression, .token (.keyword .do_),
          .phrase .block,
          .token (.keyword .end_)]
  | repeat_ :
      Production .statement
        [.token (.keyword .repeat_), .phrase .block, .token (.keyword .until_),
          .phrase .expression]
  | if_ :
      Production .statement
        [.token (.keyword .if_), .phrase .expression, .token (.keyword .then_),
          .phrase .block, .phrase .branches,
          .token (.keyword .end_)]
  | forRange :
      Production .statement
        [.token (.keyword .for_), .token .name, .token (.symbol .assign),
          .phrase .expression,
          .token (.symbol .comma), .phrase .expression, .phrase .step,
          .token (.keyword .do_), .phrase .block,
          .token (.keyword .end_)]
  | forIn :
      Production .statement
        [.token (.keyword .for_), .token .name, .phrase .moreNames,
          .token (.keyword .in_), .phrase .values,
          .token (.keyword .do_), .phrase .block, .token (.keyword .end_)]
  | function_ :
      Production .statement [.token (.keyword .function_),
        .phrase .functionName, .phrase .body]
  | localFunction :
      Production .statement
        [.token (.keyword .local_), .token (.keyword .function_), .token .name,
          .phrase .body]
  | local_ : Production .statement [.token (.keyword .local_), .phrase .localNames]
  | localAssign :
      Production .statement
        [.token (.keyword .local_), .phrase .localNames,
          .token (.symbol .assign), .phrase .values]
  -- parts of statements
  | noBranch : Production .branches []
  | elseif_ :
      Production .branches
        [.token (.keyword .elseif_), .phrase .expression,
          .token (.keyword .then_), .phrase .block, .phrase .branches]
  | else_ : Production .branches [.token (.keyword .else_), .phrase .block]
  | noStep : Production .step []
  | byStep : Production .step [.token (.symbol .comma), .phrase .expression]
  | noMoreNames : Production .moreNames []
  | moreNames :
      Production .moreNames [.token (.symbol .comma), .token .name,
        .phrase .moreNames]
  | noMoreVariables : Production .moreVariables []
  | moreVariables :
      Production .moreVariables
        [.token (.symbol .comma), .phrase (.suffixed .variable_),
          .phrase .moreVariables]
  | localName : Production .localNames [.token .name, .phrase .attrib]
  | localNames :
      Production .localNames [.token .name, .phrase .attrib,
        .token (.symbol .comma), .phrase .localNames]
  | noAttrib : Production .attrib []
  | attrib :
      Production .attrib [.token (.symbol .less), .token .name,
        .token (.symbol .greater)]
  | functionName : Production .functionName [.token .name, .phrase .nameParts]
  | methodName :
      Production .functionName [.token .name, .phrase .nameParts,
        .token (.symbol .colon), .token .name]
  | noNamePart : Production .nameParts []
  | namePart :
      Production .nameParts [.token (.symbol .dot), .token .name,
        .phrase .nameParts]
  -- function bodies
  | body :
      Production .body
        [.token (.symbol .leftParen), .phrase .parameters,
          .token (.symbol .rightParen), .phrase .block,
          .token (.keyword .end_)]
  | bodyWithoutParameters :
      Production .body
        [.token (.symbol .leftParen), .token (.symbol .rightParen),
          .phrase .block, .token (.keyword .end_)]
  | varargs : Production .parameters [.token (.symbol .ellipsis)]
  | parameter : Production .parameters [.token .name]
  | parameters :
      Production .parameters [.token .name, .token (.symbol .comma),
        .phrase .parameters]
  -- expressions
  | value : Production .values [.phrase .expression]
  | values :
      Production .values [.phrase .expression, .token (.symbol .comma),
        .phrase .values]
  | atom {k} : k ∈ TokenKind.atoms → Production .expression [.token k]
  | unary {op} :
      op ∈ TokenKind.unaryOperators →
      Production .expression [.token op, .phrase .expression]
  | binary {op} :
      op ∈ TokenKind.binaryOperators →
      Production .expression [.phrase .expression, .token op, .phrase .expression]
  | tableValue : Production .expression [.phrase .table]
  | functionValue :
      Production .expression [.token (.keyword .function_), .phrase .body]
  | suffixedValue {form} : Production .expression [.phrase (.suffixed form)]
  -- suffixed expressions
  | ofName : Production (.suffixed .variable_) [.token .name]
  | ofParens :
      Production (.suffixed .parens)
        [.token (.symbol .leftParen), .phrase .expression,
          .token (.symbol .rightParen)]
  | dot {before} :
      Production (.suffixed .variable_)
        [.phrase (.suffixed before), .token (.symbol .dot), .token .name]
  | bracket {before} :
      Production (.suffixed .variable_)
        [.phrase (.suffixed before), .token (.symbol .leftBracket),
          .phrase .expression,
          .token (.symbol .rightBracket)]
  | method {before} :
      Production (.suffixed .call)
        [.phrase (.suffixed before), .token (.symbol .colon), .token .name,
          .phrase .arguments]
  | call {before} :
      Production (.suffixed .call) [.phrase (.suffixed before), .phrase .arguments]
  | argumentString : Production .arguments [.token .string]
  | argumentTable : Production .arguments [.phrase .table]
  | noArguments :
      Production .arguments [.token (.symbol .leftParen),
        .token (.symbol .rightParen)]
  | arguments :
      Production .arguments [.token (.symbol .leftParen), .phrase .values,
        .token (.symbol .rightParen)]
  -- table constructors
  | table :
      Production .table [.token (.symbol .leftBrace), .phrase .entries,
        .token (.symbol .rightBrace)]
  | noEntry : Production .entries []
  | lastEntry : Production .entries [.phrase .entry]
  | entries {sep} :
      sep = .symbol .comma ∨ sep = .symbol .semicolon →
      Production .entries [.phrase .entry, .token sep, .phrase .entries]
  | keyedEntry :
      Production .entry
        [.token (.symbol .leftBracket), .phrase .expression,
          .token (.symbol .rightBracket),
          .token (.symbol .assign), .phrase .expression]
  | namedEntry :
      Production .entry [.token .name, .token (.symbol .assign),
        .phrase .expression]
  | entry : Production .entry [.phrase .expression]

inductive Tree where
  | leaf (t : Token)
  | node (p : Phrase) (children : List Tree)

namespace Tree

/-- What holds of a tree if it holds of its children holds of every tree. -/
@[elab_as_elim]
theorem induct {motive : Tree → Prop} (leaf : ∀ t, motive (.leaf t))
    (node : ∀ p children, (∀ c ∈ children, motive c) → motive (.node p children))
    (tree : Tree) : motive tree := by
  refine @Tree.rec motive (fun trees => ∀ c ∈ trees, motive c) leaf node
    (by simp) ?_ tree
  intro c cs hc hcs
  exact List.forall_mem_cons.2 ⟨hc, hcs⟩

mutual

/-- The tokens at the leaves. -/
def tokens : Tree → List Token
  | leaf t => [t]
  | node _ children => tokensAll children

def tokensAll : List Tree → List Token
  | [] => []
  | c :: cs => c.tokens ++ tokensAll cs

end

@[simp] theorem tokensAll_append (cs ds : List Tree) :
    tokensAll (cs ++ ds) = tokensAll cs ++ tokensAll ds := by
  induction cs with
  | nil => rfl
  | cons c cs ih => simp [tokensAll, ih]

mutual

/-- Whether a tree is one of a phrase by the productions. -/
inductive IsA : Tree → Phrase → Prop
  | node {p : Phrase} {children : List Tree} {syms : List Sym} :
      Production p syms → Spells children syms → IsA (.node p children) p

inductive Spells : List Tree → List Sym → Prop
  | nil : Spells [] []
  | token {t : Token} {k : TokenKind} {children : List Tree} {syms : List Sym} :
      t.kind = k → Spells children syms → Spells (.leaf t :: children)
        (.token k :: syms)
  | phrase {c : Tree} {p : Phrase} {children : List Tree} {syms : List Sym} :
      IsA c p → Spells children syms → Spells (c :: children) (.phrase p :: syms)

end

section Inversion

variable {t : Token} {p p' : Phrase} {k : TokenKind} {children : List Tree}
  {syms : List Sym}

@[simp] theorem not_isA_leaf : ¬(leaf t).IsA p := nofun

theorem isA_node :
    (node p' children).IsA p ↔ p' = p ∧ ∃ syms, Production p syms ∧
    Spells children syms := by
  constructor
  · rintro ⟨hproduction, hspells⟩
    exact ⟨rfl, _, hproduction, hspells⟩
  · rintro ⟨rfl, syms, hproduction, hspells⟩
    exact .node hproduction hspells

@[simp] theorem spells_nil : Spells children [] ↔ children = [] := by
  constructor
  · rintro ⟨⟩
    rfl
  · rintro rfl
    exact .nil

@[simp] theorem spells_token :
    Spells children (.token k :: syms) ↔ ∃ t more, children = leaf t :: more ∧
    t.kind = k ∧ Spells more syms := by
  constructor
  · rintro ⟨⟩
    next t more hkind hmore => exact ⟨t, more, rfl, hkind, hmore⟩
  · rintro ⟨t, more, rfl, hkind, hmore⟩
    exact .token hkind hmore

@[simp] theorem spells_phrase :
    Spells children (.phrase p :: syms) ↔ ∃ c more, children = c :: more ∧
    c.IsA p ∧ Spells more syms := by
  constructor
  · rintro ⟨⟩
    next c more hc hmore => exact ⟨c, more, rfl, hc, hmore⟩
  · rintro ⟨c, more, rfl, hc, hmore⟩
    exact .phrase hc hmore

theorem Spells.append {more : List Tree} {moreSyms : List Sym}
    (h : Spells children syms) (h' : Spells more moreSyms) :
    Spells (children ++ more) (syms ++ moreSyms) := by
  induction syms generalizing children with
  | nil =>
      obtain rfl := spells_nil.1 h
      exact h'
  | cons sym syms ih =>
      cases h with
      | token hkind hrest => exact .token hkind (ih hrest)
      | phrase hc hrest => exact .phrase hc (ih hrest)

end Inversion

/-- `Sub s t`: the tree `s` is a part of `t`, or `t` itself. -/
inductive Sub : Tree → Tree → Prop
  | refl (t : Tree) : Sub t t
  | child {s c : Tree} {p : Phrase} {children : List Tree} :
      c ∈ children → Sub s c → Sub s (node p children)

theorem Sub.trans {s t u : Tree} (h : s.Sub t) (h' : t.Sub u) : s.Sub u := by
  induction h' with
  | refl => exact h
  | child hmem _ ih => exact .child hmem ih

theorem tokens_sublist_tokensAll {c : Tree} {children : List Tree}
    (h : c ∈ children) : c.tokens.Sublist (tokensAll children) := by
  induction children with
  | nil => simp at h
  | cons d children ih =>
      rcases List.mem_cons.1 h with rfl | hmore
      · exact List.sublist_append_left _ _
      · exact (ih hmore).trans (List.sublist_append_right _ _)

theorem Sub.tokens_sublist {s t : Tree} (h : s.Sub t) :
    s.tokens.Sublist t.tokens := by
  induction h with
  | refl => exact .refl _
  | child hmem _ ih => exact ih.trans (tokens_sublist_tokensAll hmem)

def first (tree : Tree) : Pos := (tree.tokens.head?.map (·.pos)).getD .none

def last (tree : Tree) : Pos := (tree.tokens.getLast?.map (·.pos)).getD .none

/-! ## Table constructors -/

theorem isA_table {tree : Tree} (h : tree.IsA .table) :
    ∃ t entries u, tree = node .table [leaf t, entries, leaf u] := by
  cases h with
  | node hproduction hspells =>
      cases hproduction
      obtain ⟨t, _, rfl, -, hspells⟩ := spells_token.1 hspells
      obtain ⟨entries, _, rfl, -, hspells⟩ := spells_phrase.1 hspells
      obtain ⟨u, _, rfl, -, hspells⟩ := spells_token.1 hspells
      obtain rfl := spells_nil.1 hspells
      exact ⟨t, entries, u, rfl⟩

theorem exists_head_of_isA_table {tree : Tree} (h : tree.IsA .table) :
    ∃ t ∈ tree.tokens, t.pos = tree.first := by
  obtain ⟨t, entries, u, rfl⟩ := isA_table h
  exact ⟨t, by simp [tokens, tokensAll], rfl⟩

theorem offset_ne_of_children {children : List Tree}
    (h : (tokensAll children).Pairwise fun t u => t.pos.offset < u.pos.offset)
    {c d : Tree} (hc : c ∈ children) (hd : d ∈ children) (hne : c ≠ d)
    {t u : Token} (ht : t ∈ c.tokens) (hu : u ∈ d.tokens) :
    t.pos.offset ≠ u.pos.offset := by
  induction children with
  | nil => simp at hc
  | cons first children ih =>
      obtain ⟨-, hmore, hapart⟩ := List.pairwise_append.1 h
      have hlater {e : Tree} {v : Token} (he : e ∈ children)
          (hv : v ∈ e.tokens) : v ∈ tokensAll children :=
        (tokens_sublist_tokensAll he).subset hv
      rcases List.mem_cons.1 hc with rfl | hc' <;>
        rcases List.mem_cons.1 hd with rfl | hd'
      · exact absurd rfl hne
      · exact Nat.ne_of_lt (hapart t ht u (hlater hd' hu))
      · exact Nat.ne_of_gt (hapart u hu t (hlater hc' ht))
      · exact ih hmore hc' hd'

theorem first_ne_of_sub_child {p : Phrase} {children : List Tree}
    (hroot : (node p children).IsA .table)
    (h : (tokensAll children).Pairwise fun t u => t.pos.offset < u.pos.offset)
    {c d : Tree} (hd : d ∈ children) (hsub : c.Sub d) (hc : c.IsA .table) :
    c.first.offset ≠ (node p children).first.offset := by
  obtain ⟨t, entries, u, heq⟩ := isA_table hroot
  obtain ⟨rfl, rfl⟩ := Tree.node.inj heq
  obtain ⟨v, hv, hfirst⟩ := exists_head_of_isA_table hc
  have hne : leaf t ≠ d := by
    rintro rfl
    cases hsub
    exact not_isA_leaf hc
  rw [← hfirst]
  exact (offset_ne_of_children h (by simp) hd hne List.mem_cons_self
    (hsub.tokens_sublist.subset hv)).symm

/-- If tokens ascend, then a table constructor is told by the place where it
begins. -/
theorem eq_of_first_eq {tree : Tree}
    (h : tree.tokens.Pairwise fun t u => t.pos.offset < u.pos.offset)
    {c d : Tree} (hc : c.Sub tree) (hd : d.Sub tree) (hcTable : c.IsA .table)
    (hdTable : d.IsA .table) (hfirst : c.first.offset = d.first.offset) :
    c = d := by
  induction tree using induct with
  | leaf t =>
      cases hc
      exact absurd hcTable not_isA_leaf
  | node p children ih =>
      cases hc with
      | refl =>
          cases hd with
          | refl => rfl
          | child hmem hsub =>
              exact absurd hfirst.symm
                (first_ne_of_sub_child hcTable h hmem hsub hdTable)
      | @child c' _ _ hmem hsub =>
          cases hd with
          | refl =>
              exact absurd hfirst
                (first_ne_of_sub_child hdTable h hmem hsub hcTable)
          | @child d' _ _ hmem' hsub' =>
              by_cases hsame : c' = d'
              · subst hsame
                exact ih c' hmem
                  (h.sublist (tokens_sublist_tokensAll hmem)) hsub hsub'
              · obtain ⟨t, ht, htFirst⟩ := exists_head_of_isA_table hcTable
                obtain ⟨u, hu, huFirst⟩ := exists_head_of_isA_table hdTable
                rw [← htFirst, ← huFirst] at hfirst
                exact absurd hfirst
                  (offset_ne_of_children h hmem hmem' hsame
                    (hsub.tokens_sublist.subset ht)
                  (hsub'.tokens_sublist.subset hu))

/-! ## Where statements and entries begin -/

def nextOffset (finish : Pos) (ts : List Token) : Nat :=
  ((ts.head?.map (·.pos)).getD finish).offset

mutual

/-- The offsets of the tokens before which a statement begins or a block ends,
when `rest` follows the tree.  A block is a statement and the block of all
further statements, so its first token is that of a statement. -/
def spots (finish : Pos) : Tree → (rest : List Token) → List Nat
  | leaf _, _ => []
  | node .block children, rest =>
    nextOffset finish (tokensAll children ++ rest) :: nextOffset finish rest ::
      spotsAll finish children rest
  | node _ children, rest => spotsAll finish children rest

def spotsAll (finish : Pos) : List Tree → (rest : List Token) → List Nat
  | [], _ => []
  | c :: cs, rest =>
    c.spots finish (tokensAll cs ++ rest) ++ spotsAll finish cs rest

end

mutual

/-- The offsets of the tokens before which an entry begins or the entries end,
when `rest` follows them.  The entries are one of them and the entries after
it. -/
def entrySpots : Tree → (rest : List Token) → List Nat
  | node .entries children, rest =>
    nextOffset .none (tokensAll children ++ rest) :: nextOffset .none rest ::
      entrySpotsAll children rest
  | _, _ => []

def entrySpotsAll : List Tree → (rest : List Token) → List Nat
  | [], _ => []
  | c :: cs, rest => c.entrySpots (tokensAll cs ++ rest) ++ entrySpotsAll cs rest

end

/-- The offsets at which the entries of a table constructor begin, and that of
its closing brace. -/
def entryOffsets : Tree → List Nat
  | leaf _ => []
  | node _ children => entrySpotsAll children []

end Tree

end LuaGloss

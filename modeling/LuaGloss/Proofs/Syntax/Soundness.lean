import LuaGloss.Proofs.Syntax.Tree
import LuaGloss.Syntax.Statement

/-!
# What has a tree is derivable

The tokens of a syntax tree are derivable as the phrase at its root.  Each
production is checked once; trees follow by induction.

Where operators are concerned, a tree has an operand that is an expression of
its own.  Flat expressions can be put together again because a list of operators
can be lengthened by another, and so can a list of suffixes.
-/

namespace LuaGloss

/-! ## The tables of operators -/

namespace TokenKind

theorem mem_binaryOperators {k : TokenKind} :
    k ∈ binaryOperators ↔ k.priority?.isSome := by
  cases k with
  | keyword word => cases word <;> decide
  | symbol sign => cases sign <;> decide
  | comment form => cases form <;> decide
  | _ => decide

theorem mem_unaryOperators {k : TokenKind} : k ∈ unaryOperators ↔ k.isUnary := by
  cases k with
  | keyword word => cases word <;> decide
  | symbol sign => cases sign <;> decide
  | comment form => cases form <;> decide
  | _ => decide

theorem mem_atoms {k : TokenKind} :
    k ∈ atoms ↔ k.isConstant ∨ k = .symbol .ellipsis := by
  cases k with
  | keyword word => cases word <;> decide
  | symbol sign => cases sign <;> decide
  | comment form => cases form <;> decide
  | _ => decide

end TokenKind

namespace Derives

variable {isSeparated : Bool} {ks mid rest : List TokenKind}
  {before form : SuffixedForm}

theorem operators_append (h : Derives isSeparated .operators ks mid)
    (h' : Derives isSeparated .operators mid rest) :
    Derives isSeparated .operators ks rest := by
  generalize hp : Phrase.operators = p at h
  induction h with
  | noOperator => exact h'
  | operator hop hoperand _ _ ih => exact .operator hop hoperand (ih h' hp)
  | _ => cases hp

theorem expression_append (h : Derives isSeparated .expression ks mid)
    (h' : Derives isSeparated .operators mid rest) :
    Derives isSeparated .expression ks rest := by
  cases h with
  | expression hoperand hoperators =>
      exact .expression hoperand (hoperators.operators_append h')

theorem ofSimple (h : Derives isSeparated .simple ks rest) :
    Derives isSeparated .expression ks rest :=
  .expression (.simple h) .noOperator

theorem suffixes_append {first : SuffixedForm}
    (h : Derives isSeparated (.suffixes first before) ks mid)
    (h' : Derives isSeparated (.suffixes before form) mid rest) :
    Derives isSeparated (.suffixes first form) ks rest := by
  generalize hp : Phrase.suffixes first before = p at h
  induction h generalizing first with
  | noSuffix =>
      obtain ⟨rfl, rfl⟩ := Phrase.suffixes.inj hp
      exact h'
  | dot _ ih =>
      obtain ⟨-, rfl⟩ := Phrase.suffixes.inj hp
      exact .dot (ih h' rfl)
  | bracket hindex _ _ ih =>
      obtain ⟨-, rfl⟩ := Phrase.suffixes.inj hp
      exact .bracket hindex (ih h' rfl)
  | method harguments _ _ ih =>
      obtain ⟨-, rfl⟩ := Phrase.suffixes.inj hp
      exact .method harguments (ih h' rfl)
  | call harguments _ _ ih =>
      obtain ⟨-, rfl⟩ := Phrase.suffixes.inj hp
      exact .call harguments (ih h' rfl)
  | _ => cases hp

theorem suffixed_append (h : Derives isSeparated (.suffixed before) ks mid)
    (h' : Derives isSeparated (.suffixes before form) mid rest) :
    Derives isSeparated (.suffixed form) ks rest := by
  cases h with
  | ofName hsuffixes => exact .ofName (hsuffixes.suffixes_append h')
  | ofParens hexpression hsuffixes =>
      exact .ofParens hexpression (hsuffixes.suffixes_append h')

end Derives

/-! ## Productions and trees -/

def DerivesAll : List Sym → List TokenKind → List TokenKind → Prop
  | [], ks, rest => ks = rest
  | .token k :: syms, ks, rest => ∃ mid, ks = k :: mid ∧ DerivesAll syms mid rest
  | .phrase p :: syms, ks, rest =>
    ∃ mid, Derives false p ks mid ∧ DerivesAll syms mid rest

theorem Production.derives {p : Phrase} {syms : List Sym}
    {ks rest : List TokenKind} (h : Production p syms)
    (hall : DerivesAll syms ks rest) : Derives false p ks rest := by
  cases h with
  | atom hk =>
      obtain ⟨_, rfl, rfl⟩ := hall
      exact .ofSimple (.atom hk)
  | tableValue =>
      obtain ⟨_, htable, rfl⟩ := hall
      exact .ofSimple (.tableValue htable)
  | functionValue =>
      obtain ⟨_, rfl, _, hbody, rfl⟩ := hall
      exact .ofSimple (.functionValue hbody)
  | suffixedValue =>
      obtain ⟨_, hsuffixed, rfl⟩ := hall
      exact .ofSimple (.suffixedValue hsuffixed)
  | unary hop =>
      obtain ⟨mid, rfl, _, hexpression, rfl⟩ := hall
      cases hexpression with
      | expression hoperand hoperators =>
          exact .expression (.unary hop hoperand) hoperators
  | binary hop =>
      obtain ⟨_, hleft, mid, rfl, _, hright, rfl⟩ := hall
      cases hright with
      | expression hoperand hoperators =>
          exact hleft.expression_append (.operator hop hoperand hoperators)
  | dot =>
      obtain ⟨_, hbefore, _, rfl, _, rfl, rfl⟩ := hall
      exact hbefore.suffixed_append (.dot .noSuffix)
  | bracket =>
      obtain ⟨_, hbefore, _, rfl, _, hindex, _, rfl, rfl⟩ := hall
      exact hbefore.suffixed_append (.bracket hindex .noSuffix)
  | method =>
      obtain ⟨_, hbefore, _, rfl, _, rfl, _, harguments, rfl⟩ := hall
      exact hbefore.suffixed_append (.method harguments .noSuffix)
  | call =>
      obtain ⟨_, hbefore, _, harguments, rfl⟩ := hall
      exact hbefore.suffixed_append (.call harguments .noSuffix)
  | forRange =>
      obtain ⟨_, rfl, _, rfl, _, rfl, _, hfirst, _, rfl, _, hlast, _, hstep, _,
          rfl, _, hblock, _, rfl, rfl⟩ := hall
      exact .forRange hfirst hlast hstep hblock
  | forIn =>
      obtain ⟨_, rfl, _, rfl, _, hnames, _, rfl, _, hvalues, _, rfl, _, hblock,
          _, rfl, rfl⟩ := hall
      exact .forIn hnames hvalues hblock
  -- the others are derivation rules of the same form
  | _ => grind [DerivesAll, intro Derives]

namespace Tree

theorem Spells.derivesAll {children : List Tree} {syms : List Sym}
    {rest : List TokenKind} (h : Spells children syms)
    (hchildren : ∀ c ∈ children, ∀ p rest, c.IsA p →
      Derives false p (c.tokens.map (·.kind) ++ rest) rest) :
    DerivesAll syms ((tokensAll children).map (·.kind) ++ rest) rest := by
  induction syms generalizing children with
  | nil =>
      obtain rfl := spells_nil.1 h
      exact rfl
  | cons sym syms ih =>
      cases h with
      | token hkind hmore =>
          subst hkind
          exact ⟨_, rfl, ih hmore fun c hc =>
            hchildren c (List.mem_cons_of_mem _ hc)⟩
      | @phrase c _ _ _ hc hmore =>
          rw [tokensAll, List.map_append, List.append_assoc]
          refine ⟨_, hchildren c List.mem_cons_self _ _ hc,
            ih hmore fun c hc => ?_⟩
          exact hchildren c (List.mem_cons_of_mem _ hc)

/-- The tokens of a tree are derivable as its phrase, whatever follows them. -/
theorem IsA.derives {tree : Tree} {p : Phrase} (h : tree.IsA p)
    (rest : List TokenKind) :
    Derives false p (tree.tokens.map (·.kind) ++ rest) rest := by
  induction tree using induct generalizing p rest with
  | leaf t => simp at h
  | node p' children ih =>
      obtain ⟨rfl, syms, hproduction, hspells⟩ := isA_node.1 h
      exact hproduction.derives (hspells.derivesAll fun c hc _ _ hisA =>
        ih c hc hisA _)

end Tree

/-! ## Forms of suffixed expressions -/

namespace Suffixed

variable (s : Suffixed)

def HasForm : SuffixedForm → Prop
  | .variable_ => s.isAssignable = true ∧ s.isCall = false
  | .call => s.isAssignable = false ∧ s.isCall = true
  | .parens => s.isAssignable = false ∧ s.isCall = false

theorem hasForm_ofName (ident : Ident) : (ofName ident).HasForm .variable_ :=
  ⟨rfl, rfl⟩

theorem hasForm_ofParens (start : Pos) : (ofParens start).HasForm .parens :=
  ⟨rfl, rfl⟩

theorem hasForm_dot (ident : Ident) : (s.dot ident).HasForm .variable_ :=
  ⟨rfl, rfl⟩

theorem hasForm_bracket (key : Option Ident) (index : Value) :
    (s.bracket key index).HasForm .variable_ := ⟨rfl, rfl⟩

theorem hasForm_call : s.call.HasForm .call := ⟨rfl, rfl⟩

theorem HasForm.eq_variable {s : Suffixed} {form : SuffixedForm}
    (h : s.HasForm form) (hs : s.isAssignable = true) : form = .variable_ := by
  cases form with
  | variable_ => rfl
  | call => simp [HasForm, hs] at h
  | parens => simp [HasForm, hs] at h

theorem HasForm.eq_call {s : Suffixed} {form : SuffixedForm} (h : s.HasForm form)
    (hs : s.isCall = true) : form = .call := by
  cases form with
  | variable_ => simp [HasForm, hs] at h
  | call => rfl
  | parens => simp [HasForm, hs] at h

end Suffixed

end LuaGloss

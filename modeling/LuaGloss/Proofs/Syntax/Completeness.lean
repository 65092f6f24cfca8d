import LuaGloss.Proofs.Syntax.Reading
import LuaGloss.Proofs.Syntax.Soundness

/-!
# What is derivable is read

If every statement is followed by a semicolon, then no phrase can be mistaken
for the beginning of a longer one: the token behind it decides.  The parsers
then succeed on every derivation and stop exactly where it stops.

The parser for expressions stops early at an operator that binds too loosely.
What it leaves is again a list of operators, which the caller goes on with; at
the lowest limit nothing is left.
-/

namespace LuaGloss

/-! ## The first token of a phrase and the token behind it -/

namespace TokenKind

def startsSuffix : TokenKind → Bool
  | .symbol .dot | .symbol .leftBracket | .symbol .colon | .symbol .leftParen
  | .symbol .leftBrace | .string => true
  | _ => false

def extendsExpression (k : TokenKind) : Bool :=
  k.priority?.isSome || k.startsSuffix

def startsExpression (k : TokenKind) : Bool :=
  k.isUnary || k.isConstant ||
    match k with
    | .symbol .ellipsis | .symbol .leftBrace | .symbol .leftParen
    | .keyword .function_ | .name => true
    | _ => false

theorem startsSuffix_of_priority {k : TokenKind} (h : k.priority?.isSome) :
    k.startsSuffix = false := by
  cases k with
  | symbol sign => cases sign <;> first | rfl | simp [priority?] at h
  | string => simp [priority?] at h
  | _ => rfl

theorem startsExpression_excludes {k : TokenKind} (h : k.startsExpression) :
    k.endsBlock = false ∧ k ≠ .symbol .semicolon ∧ k ≠ .symbol .rightParen ∧
      k ≠ .symbol .rightBrace ∧ k ≠ .symbol .leftBracket := by
  cases k with
  | keyword word => revert h; cases word <;> decide
  | symbol sign => revert h; cases sign <;> decide
  | comment form => revert h; cases form <;> decide
  | _ => revert h; decide

theorem priority_pos {k : TokenKind} {left right : Nat}
    (h : k.priority? = some (left, right)) : 0 < left := by
  cases k with
  | keyword word => cases word <;> simp [priority?] at h <;> omega
  | symbol sign => cases sign <;> simp [priority?] at h <;> omega
  | _ => simp [priority?] at h

end TokenKind

def AfterExpression (rest : List TokenKind) : Prop :=
  ∀ k, rest.head? = some k → k.extendsExpression = false

def AfterSuffixes (rest : List TokenKind) : Prop :=
  ∀ k, rest.head? = some k → k.startsSuffix = false

/-- The next token is no operator that binds more tightly than `limit`. -/
def LooserThan (limit : Nat) (rest : List TokenKind) : Prop :=
  ∀ k, rest.head? = some k → ∀ left right, k.priority? = some (left, right) →
  left ≤ limit

theorem afterExpression_cons {k : TokenKind} {rest : List TokenKind}
    (h : k.extendsExpression = false) : AfterExpression (k :: rest) := by
  intro k' hk'
  obtain rfl : k = k' := by simpa using hk'
  exact h

theorem AfterExpression.afterSuffixes {rest : List TokenKind}
    (h : AfterExpression rest) : AfterSuffixes rest := by
  intro k hk
  have := h k hk
  simp only [TokenKind.extendsExpression, Bool.or_eq_false_iff] at this
  exact this.2

theorem afterSuffixes_cons {k : TokenKind} {rest : List TokenKind}
    (h : k.startsSuffix = false) : AfterSuffixes (k :: rest) := by
  intro k' hk'
  obtain rfl : k = k' := by simpa using hk'
  exact h

theorem AfterExpression.of_semicolon {rest : List TokenKind}
    (h : rest.head? = some (.symbol .semicolon)) : AfterExpression rest := by
  intro k hk
  obtain rfl : .symbol .semicolon = k := by simpa [h] using hk
  rfl

theorem AfterExpression.of_endsBlock {rest : List TokenKind}
    (h : rest.head?.all (·.endsBlock)) : AfterExpression rest := by
  intro k hk
  rw [hk] at h
  cases k with
  | keyword word => revert h; cases word <;> decide
  | _ => simp [TokenKind.endsBlock] at h

namespace Derives

variable {isSeparated : Bool} {ks mid rest : List TokenKind}

theorem suffixed_head {form : SuffixedForm}
    (h : Derives isSeparated (.suffixed form) ks rest) :
    ∃ k tail, ks = k :: tail ∧ (k = .name ∨ k = .symbol .leftParen) := by
  cases h with
  | ofName _ => exact ⟨_, _, rfl, .inl rfl⟩
  | ofParens _ _ => exact ⟨_, _, rfl, .inr rfl⟩

theorem arguments_head (h : Derives isSeparated .arguments ks rest) :
    ∃ k tail, ks = k :: tail ∧
      (k = .string ∨ k = .symbol .leftBrace ∨ k = .symbol .leftParen) := by
  cases h with
  | argumentString => exact ⟨_, _, rfl, .inl rfl⟩
  | argumentTable h =>
      cases h with
      | table _ => exact ⟨_, _, rfl, .inr (.inl rfl)⟩
  | noArguments => exact ⟨_, _, rfl, .inr (.inr rfl)⟩
  | arguments _ => exact ⟨_, _, rfl, .inr (.inr rfl)⟩

theorem not_isUnary {k : TokenKind}
    (h : Derives isSeparated .simple (k :: ks) rest) : ¬ k.isUnary := by
  cases h with
  | atom hk =>
      rcases TokenKind.mem_atoms.mp hk with hk | rfl
      · cases k with
        | keyword word =>
            cases word <;> simp [TokenKind.isConstant, TokenKind.isUnary] at hk ⊢
        | symbol sign => simp [TokenKind.isConstant] at hk
        | _ => simp [TokenKind.isUnary]
      · decide
  | tableValue h =>
      cases h with
      | table _ => decide
  | functionValue _ => decide
  | suffixedValue h =>
      obtain ⟨k', tail, hhead, hk⟩ := h.suffixed_head
      obtain ⟨rfl, -⟩ : k = k' ∧ ks = tail := by simpa using hhead
      rcases hk with rfl | rfl
      · decide
      · decide

theorem operand_head (h : Derives isSeparated .operand ks rest) :
    ∃ k tail, ks = k :: tail ∧ k.startsExpression := by
  cases h with
  | unary hop _ =>
      refine ⟨_, _, rfl, ?_⟩
      simp [TokenKind.startsExpression, TokenKind.mem_unaryOperators.mp hop]
  | simple h =>
      cases h with
      | atom hk =>
          refine ⟨_, _, rfl, ?_⟩
          rcases TokenKind.mem_atoms.mp hk with hk | rfl
          · simp [TokenKind.startsExpression, hk]
          · rfl
      | tableValue h =>
          cases h with
          | table _ => exact ⟨_, _, rfl, rfl⟩
      | functionValue _ => exact ⟨_, _, rfl, rfl⟩
      | suffixedValue h =>
          obtain ⟨k, tail, rfl, rfl | rfl⟩ := h.suffixed_head
          · exact ⟨_, _, rfl, rfl⟩
          · exact ⟨_, _, rfl, rfl⟩

theorem expression_head (h : Derives isSeparated .expression ks rest) :
    ∃ k tail, ks = k :: tail ∧ k.startsExpression := by
  cases h with
  | expression hoperand _ => exact hoperand.operand_head

theorem values_head (h : Derives isSeparated .values ks rest) :
    ∃ k tail, ks = k :: tail ∧ k.startsExpression := by
  cases h with
  | value h => exact h.expression_head
  | values h _ => exact h.expression_head

theorem entry_head (h : Derives isSeparated .entry ks rest) :
    ∃ k tail, ks = k :: tail ∧ k ≠ .symbol .rightBrace := by
  cases h with
  | keyedEntry _ _ => exact ⟨_, _, rfl, by simp⟩
  | namedEntry _ => exact ⟨_, _, rfl, by simp⟩
  | entry h =>
      obtain ⟨k, tail, rfl, hk⟩ := h.expression_head
      exact ⟨k, tail, rfl, (TokenKind.startsExpression_excludes hk).2.2.2.1⟩

theorem afterSuffixes_of_moreVariables
    (h : Derives isSeparated .moreVariables ks (.symbol .assign :: rest)) :
    AfterSuffixes ks := by
  cases h with
  | noMoreVariables => exact afterSuffixes_cons rfl
  | moreVariables _ _ => exact afterSuffixes_cons rfl

theorem not_blockEnd (h : Derives isSeparated .values ks rest) :
    ¬ (ks.head?.all (·.endsBlock) || ks.head? == some (.symbol .semicolon)) =
      true := by
  obtain ⟨k, tail, rfl, hk⟩ := h.values_head
  obtain ⟨hends, hsemicolon, -⟩ := TokenKind.startsExpression_excludes hk
  simp [hends, hsemicolon]

theorem statement_head (h : Derives isSeparated .statement ks rest) :
    ∃ k tail, ks = k :: tail ∧ k.endsBlock = false ∧ k ≠ .keyword .return_ := by
  cases h with
  | assign h _ _ =>
      obtain ⟨k, tail, rfl, rfl | rfl⟩ := h.suffixed_head
      · exact ⟨_, _, rfl, rfl, by simp⟩
      · exact ⟨_, _, rfl, rfl, by simp⟩
  | callStatement h =>
      obtain ⟨k, tail, rfl, rfl | rfl⟩ := h.suffixed_head
      · exact ⟨_, _, rfl, rfl, by simp⟩
      · exact ⟨_, _, rfl, rfl, by simp⟩
  | _ => exact ⟨_, _, rfl, rfl, by simp⟩

theorem branches_head
    (h : Derives isSeparated .branches ks (.keyword .end_ :: rest)) :
    ks.head?.all (·.endsBlock) := by
  cases h <;> rfl

/-- What follows an operand ends its suffixes: it is an operator, or the end of
the expression. -/
theorem afterSuffixes_of_operators (h : Derives isSeparated .operators ks rest)
    (hrest : AfterExpression rest) : AfterSuffixes ks := by
  cases h with
  | noOperator => exact hrest.afterSuffixes
  | operator hop _ _ =>
      exact afterSuffixes_cons
        (TokenKind.startsSuffix_of_priority (TokenKind.mem_binaryOperators.mp hop))

theorem eq_of_looserThan_zero (h : Derives isSeparated .operators ks rest)
    (hlooser : LooserThan 0 ks) : ks = rest := by
  cases h with
  | noOperator => rfl
  | operator hop _ _ =>
      obtain ⟨⟨left, right⟩, hpriority⟩ :=
        Option.isSome_iff_exists.mp (TokenKind.mem_binaryOperators.mp hop)
      have hle := hlooser _ rfl left right hpriority
      have hpos := TokenKind.priority_pos hpriority
      omega

theorem eq_of_name_assign
    (h : Derives isSeparated .expression (.name :: .symbol .assign :: ks) rest) :
    rest = .symbol .assign :: ks := by
  have hoperator : (TokenKind.symbol .assign) ∉ TokenKind.binaryOperators := by
    decide
  have hunary : TokenKind.name ∉ TokenKind.unaryOperators := by decide
  have hatom : TokenKind.name ∉ TokenKind.atoms := by decide
  cases h with
  | expression hoperand hoperators =>
      cases hoperand with
      | unary hop _ => exact absurd hop hunary
      | simple h =>
          cases h with
          | atom hk => exact absurd hk hatom
          | tableValue h => cases h
          | suffixedValue h =>
              cases h with
              | ofName h =>
                  cases h with
                  | noSuffix =>
                      cases hoperators with
                      | noOperator => rfl
                      | operator hop _ _ => exact absurd hop hoperator
                  | call h _ =>
                      cases h with
                      | argumentTable h => cases h

end Derives

namespace Parser

/-! ## Lists of names -/

variable {ks rest : List TokenKind}

theorem parameters_complete (n : Nat)
    (h : Derives true .parameters ks (.symbol .rightParen :: rest)) :
    Meets (parameters n) ks fun read mid =>
      read.error = none ∧ mid = .symbol .rightParen :: rest := by
  induction n generalizing ks with
  | zero => exact fun _ c _ => (Nat.not_lt_zero _ c.bound).elim
  | succ n ih =>
      cases h with
      | varargs =>
          refine .onToken_cons fun t hkind => ⟨_, if_pos hkind, ?_⟩
          exact .pure ⟨rfl, rfl⟩
      | parameter =>
          refine .onToken_cons fun t hkind =>
            ⟨_, (if_neg (by simp [hkind])).trans (if_pos hkind), ?_⟩
          exact .bind (.accept_other (by simp) (.pure ⟨rfl, rfl⟩))
      | parameters h =>
          refine .onToken_cons fun t hkind =>
            ⟨_, (if_neg (by simp [hkind])).trans (if_pos hkind), ?_⟩
          refine .bind (.accept_cons (.bind ((ih h).mono ?_)))
          rintro read _ ⟨herror, rfl⟩
          exact .pure ⟨herror, rfl⟩

theorem header_complete (h : Derives true .body ks rest) :
    Meets (header : Parser n Header) ks fun head mid =>
      ∃ line, head.closed = .ok line ∧
      Derives true .block mid (.keyword .end_ :: rest) := by
  cases h with
  | body hparameters hblock =>
      refine .bind (.accept_cons (.bind (.nextIs ?_)))
      split
      next hparen =>
        -- no parameter is a parenthesis
        cases hparameters <;> simp at hparen
      next =>
        refine .bind ((parameters_complete n hparameters).mono ?_)
        rintro read _ ⟨herror, rfl⟩
        dsimp only
        rw [herror]
        refine .bind (.accept_cons (.bind (.last fun _ => .pure ?_)))
        exact ⟨_, rfl, hblock⟩
  | bodyWithoutParameters hblock =>
      refine .bind (.accept_cons (.bind (.nextIs ?_)))
      refine .bind (.pure (.bind (.accept_cons (.bind (.last fun _ => .pure ?_)))))
      exact ⟨_, rfl, hblock⟩

theorem moreNames_complete (n : Nat)
    (h : Derives true .moreNames ks (.keyword .in_ :: rest)) :
    Meets (moreNames n) ks fun _ mid => mid = .keyword .in_ :: rest := by
  induction n generalizing ks with
  | zero => exact fun _ c _ => (Nat.not_lt_zero _ c.bound).elim
  | succ n ih =>
      cases h with
      | noMoreNames =>
          refine .onToken_other ?_ (.pure rfl)
          intro t ht
          have hkind : .keyword .in_ = t.kind := by simpa using ht
          simp [← hkind]
      | moreNames h =>
          refine .onToken_cons fun t hkind => ⟨_, if_pos hkind, ?_⟩
          exact .bind (.expectName_cons fun _ => ih h)

theorem dottedNames_complete (n : Nat) (h : Derives true .nameParts ks rest)
    (hrest : rest.head? ≠ some (.symbol .dot)) :
    Meets (dottedNames n) ks fun _ mid => mid = rest := by
  induction n generalizing ks with
  | zero => exact fun _ c _ => (Nat.not_lt_zero _ c.bound).elim
  | succ n ih =>
      cases h with
      | noNamePart =>
          refine .onToken_other ?_ (.pure rfl)
          intro t ht
          have hkind : t.kind ≠ .symbol .dot := by
            rintro hkind
            exact hrest (hkind ▸ ht)
          simp [hkind]
      | namePart h =>
          refine .onToken_cons fun t hkind => ⟨_, if_pos hkind, ?_⟩
          refine .bind (.expectName_cons fun _ => .bind ((ih h).mono ?_))
          rintro _ _ rfl
          exact .pure rfl

theorem localAttribute_complete (h : Derives true .attrib ks rest)
    (hrest : rest.head? ≠ some (.symbol .less)) :
    Meets (localAttribute : Parser n Unit) ks fun _ mid => mid = rest := by
  cases h with
  | noAttrib => exact .bind (.accept_other hrest (.pure rfl))
  | attrib =>
      refine .bind (.accept_cons (.bind (.expectName_cons fun _ => ?_)))
      exact .expectSymbol_cons rfl

theorem localNames_complete (n : Nat) (h : Derives true .localNames ks rest)
    (hless : rest.head? ≠ some (.symbol .less))
    (hcomma : rest.head? ≠ some (.symbol .comma)) :
    Meets (localNames n) ks fun _ mid => mid = rest := by
  induction n generalizing ks with
  | zero => exact fun _ c _ => (Nat.not_lt_zero _ c.bound).elim
  | succ n ih =>
      cases h with
      | localName hattribute =>
          refine .onToken_cons fun t hkind => ⟨_, if_pos hkind, ?_⟩
          refine .bind ((localAttribute_complete hattribute hless).mono ?_)
          rintro _ _ rfl
          exact .bind (.accept_other hcomma (.pure rfl))
      | localNames hattribute h =>
          refine .onToken_cons fun t hkind => ⟨_, if_pos hkind, ?_⟩
          refine .bind ((localAttribute_complete hattribute (by simp)).mono ?_)
          rintro _ _ rfl
          refine .bind (.accept_cons (.bind ((ih h).mono ?_)))
          rintro _ _ rfl
          exact .pure rfl

end Parser

namespace Grammar

open LuaGloss.Parser

/-- Every parser of the grammar succeeds on the phrases that it is for, if the
token behind them ends them. -/
structure Complete (g : Grammar n) : Prop where
  expression : ∀ limit owned ks rest, Derives true .expression ks rest →
    AfterExpression rest →
    Meets (g.expression limit owned) ks fun _ mid =>
      Derives true .operators mid rest ∧ LooserThan limit mid
  operators : ∀ limit start operand ks rest, Derives true .operators ks rest →
    AfterExpression rest →
    Meets (g.operators limit start operand) ks fun _ mid =>
      Derives true .operators mid rest ∧ LooserThan limit mid
  suffixes : ∀ s before after ks rest, s.HasForm before →
    Derives true (.suffixes before after) ks rest → AfterSuffixes rest →
    Meets (g.suffixes s) ks fun s' mid => mid = rest ∧ s'.HasForm after
  values : ∀ owned ks rest, Derives true .values ks rest → AfterExpression rest →
    rest.head? ≠ some (.symbol .comma) →
    Meets (g.values owned) ks fun _ mid => mid = rest
  entries : ∀ ks rest, Derives true .entries ks (.symbol .rightBrace :: rest) →
    Meets g.entries ks fun _ mid => mid = .symbol .rightBrace :: rest
  targets : ∀ ks rest, Derives true .moreVariables ks (.symbol .assign :: rest) →
    Meets g.targets ks fun targets mid =>
      mid = .symbol .assign :: rest ∧ targets.all (·.isAssignable)
  branches : ∀ ks rest, Derives true .branches ks (.keyword .end_ :: rest) →
    Meets g.branches ks fun _ mid => mid = .keyword .end_ :: rest
  block : ∀ ks rest, Derives true .block ks rest → rest.head?.all (·.endsBlock) →
    Meets g.block ks fun _ mid => mid = rest

namespace Complete

variable {g : Grammar n} (hg : g.Complete) {ks rest : List TokenKind}

include hg

/-! ## Expressions -/

variable {owned : Bool} {t : Token}

theorem wholeExpression (h : Derives true .expression ks rest)
    (hrest : AfterExpression rest) :
    Meets (g.expression 0 owned) ks fun _ mid => mid = rest := by
  apply (hg.expression 0 owned ks rest h hrest).mono
  rintro _ mid ⟨hoperators, hlooser⟩
  exact hoperators.eq_of_looserThan_zero hlooser

theorem functionBody {line : Nat} {opening : Pos}
    (h : Derives true .block ks (.keyword .end_ :: rest)) :
    Meets (g.functionBody owned line opening) ks fun _ mid => mid = rest := by
  refine .andThen (Meets.within (hg.block ks _ h rfl)) fun _ => ?_
  exact .closeKeyword_cons rfl

theorem tableBody {opening : Pos}
    (h : Derives true .table (.symbol .leftBrace :: ks) rest) :
    Meets (g.tableBody owned opening) ks fun _ mid => mid = rest := by
  cases h with
  | table hentries =>
      refine .andThen (Meets.within (hg.entries ks rest hentries)) fun _ => ?_
      exact .closeSymbol_cons rfl

theorem argumentsFrom (h : Derives true .arguments (t.kind :: ks) rest) :
    Meets (g.argumentsFrom t) ks fun _ mid => mid = rest := by
  unfold Grammar.argumentsFrom
  generalize t.kind = kind at h
  cases h with
  | argumentString => exact .pure rfl
  | argumentTable htable =>
      have hopen : kind = .symbol .leftBrace := by
        cases htable
        rfl
      subst hopen
      exact hg.tableBody htable
  | noArguments =>
      apply Meets.bind
      apply Meets.nextIs
      exact .closeSymbol_cons rfl
  | arguments hvalues =>
      apply Meets.bind
      apply Meets.nextIs
      obtain ⟨k, tail, rfl, hk⟩ := hvalues.values_head
      have hparen := (TokenKind.startsExpression_excludes hk).2.2.1
      have hnext : (some k == some (TokenKind.symbol .rightParen)) = false := by
        simpa using hparen
      simp only [List.head?_cons, hnext, Bool.false_eq_true, if_false]
      refine .andThen
        (hg.values false _ _ hvalues (afterExpression_cons rfl) (by simp))
        fun _ => ?_
      exact .closeSymbol_cons rfl

theorem arguments (h : Derives true .arguments ks rest) :
    Meets g.arguments ks fun _ mid => mid = rest := by
  obtain ⟨k, tail, rfl, -⟩ := h.arguments_head
  apply Meets.bind
  apply Meets.peek
  intro t ht
  cases t with
  | none => simp at ht
  | some t =>
      have hkind : t.kind = k := by simpa using ht
      subst hkind
      exact .bind (.skip (hg.argumentsFrom h))

theorem suffixedFrom {form : SuffixedForm}
    (h : Derives true (.suffixed form) (t.kind :: ks) rest)
    (hrest : AfterSuffixes rest) :
    Meets (g.suffixedFrom t) ks fun s mid => mid = rest ∧ s.HasForm form := by
  unfold Grammar.suffixedFrom
  generalize t.kind = kind at h
  cases h with
  | ofName hsuffixes =>
      exact hg.suffixes _ _ _ _ _ (Suffixed.hasForm_ofName _) hsuffixes hrest
  | ofParens hexpression hsuffixes =>
      refine .andThen
        (hg.wholeExpression hexpression (afterExpression_cons rfl)) fun _ => ?_
      apply Meets.bind
      apply Meets.closeSymbol_cons
      exact hg.suffixes _ _ _ _ _ (Suffixed.hasForm_ofParens _) hsuffixes hrest

theorem suffixed {form : SuffixedForm} (h : Derives true (.suffixed form) ks rest)
    (hrest : AfterSuffixes rest) :
    Meets g.suffixed ks fun s mid => mid = rest ∧ s.HasForm form := by
  obtain ⟨k, tail, rfl, -⟩ := h.suffixed_head
  apply Meets.bind
  apply Meets.peek
  intro t ht
  cases t with
  | none => simp at ht
  | some t =>
      have hkind : t.kind = k := by simpa using ht
      subst hkind
      exact .bind (.skip (hg.suffixedFrom h hrest))

theorem simpleFrom (h : Derives true .simple (t.kind :: ks) rest)
    (hrest : AfterSuffixes rest) :
    Meets (g.simpleFrom owned t) ks fun _ mid => mid = rest := by
  unfold Grammar.simpleFrom
  generalize hkind : t.kind = kind at h
  cases h with
  | atom hatom =>
      split
      next => exact .span fun _ => rfl
      next hconstant =>
        rcases TokenKind.mem_atoms.mp hatom with hc | rfl
        · exact absurd hc hconstant
        · exact .span fun _ => rfl
  | tableValue htable =>
      have hopen : kind = .symbol .leftBrace := by
        cases htable
        rfl
      subst hopen
      refine .andThen (hg.tableBody htable) fun _ => ?_
      exact .span fun _ => rfl
  | functionValue hbody =>
      apply Meets.bind
      apply (header_complete hbody).mono
      rintro head mid ⟨line, hline, hblock⟩
      rw [hline]
      refine .andThen (hg.functionBody hblock) fun _ => ?_
      exact .span fun _ => rfl
  | suffixedValue hsuffixed =>
      have hfrom : Meets (do return (← g.suffixedFrom t).value) ks fun _ mid =>
          mid = rest := by
        apply Meets.bind
        apply (hg.suffixedFrom (hkind ▸ hsuffixed) hrest).mono
        rintro s _ ⟨rfl, -⟩
        exact .pure rfl
      obtain ⟨k, tail, hhead, hk⟩ := hsuffixed.suffixed_head
      obtain ⟨rfl, -⟩ : kind = k ∧ ks = tail := by simpa using hhead
      rcases hk with rfl | rfl
      · exact hfrom
      · exact hfrom

/-- An operand is read with the operators behind it that bind more tightly than
a unary operator, if it has one. -/
theorem operandFrom (h : Derives true .expression (t.kind :: ks) rest)
    (hrest : AfterExpression rest) :
    Meets (g.operandFrom owned t) ks fun _ mid =>
      Derives true .operators mid rest := by
  unfold Grammar.operandFrom
  generalize hkind : t.kind = kind at h
  cases h with
  | expression hoperand hoperators =>
      cases hoperand with
      | unary hop hoperand =>
          rw [if_pos (TokenKind.mem_unaryOperators.mp hop)]
          apply Meets.bind
          apply (hg.expression unaryPriority false _ _
            (.expression hoperand hoperators) hrest).mono
          rintro _ mid ⟨hmore, -⟩
          exact .span fun _ => hmore
      | simple hsimple =>
          have hafter := hoperators.afterSuffixes_of_operators hrest
          rw [if_neg hsimple.not_isUnary]
          apply (hg.simpleFrom (hkind ▸ hsimple) hafter).mono
          rintro _ _ rfl
          exact hoperators

theorem expressionRule {limit : Nat} {owned : Bool}
    (h : Derives true .expression ks rest) (hrest : AfterExpression rest) :
    Meets (g.expressionRule limit owned) ks fun _ mid =>
      Derives true .operators mid rest ∧ LooserThan limit mid := by
  obtain ⟨k, tail, rfl, -⟩ := h.expression_head
  apply Meets.onToken_cons
  rintro t rfl
  refine ⟨_, rfl, ?_⟩
  apply Meets.bind
  apply (hg.operandFrom h hrest).mono
  intro _ mid hmore
  exact hg.operators limit _ _ mid rest hmore hrest

theorem operatorsRule {limit : Nat} {start : Pos} {operand : Value}
    (h : Derives true .operators ks rest) (hrest : AfterExpression rest) :
    Meets (g.operatorsRule limit start operand) ks fun _ mid =>
      Derives true .operators mid rest ∧ LooserThan limit mid := by
  by_cases hlooser : LooserThan limit ks
  · apply Meets.onToken_other
    · intro t ht
      cases hpriority : t.kind.priority? with
      | none => rfl
      | some priority => exact if_pos (hlooser _ ht _ _ hpriority)
    · exact .pure ⟨h, hlooser⟩
  · cases h with
    | noOperator =>
        refine absurd (fun k hk left right hpriority => ?_) hlooser
        have hextends := hrest k hk
        simp [TokenKind.extendsExpression, hpriority] at hextends
    | @operator op ks mid _ hop hoperand hoperators =>
        obtain ⟨⟨left, right⟩, hpriority⟩ :=
          Option.isSome_iff_exists.mp (TokenKind.mem_binaryOperators.mp hop)
        have htight : ¬ left ≤ limit := by
          intro hle
          refine hlooser fun k hk left' right' hpriority' => ?_
          obtain rfl : op = k := by simpa using hk
          simp only [hpriority, Option.some.injEq, Prod.mk.injEq] at hpriority'
          omega
        apply Meets.onToken_cons
        rintro t rfl
        refine ⟨_, by rw [hpriority]; exact if_neg htight, ?_⟩
        apply Meets.bind
        apply (hg.expression right false _ _
          (.expression hoperand hoperators) hrest).mono
        rintro _ mid' ⟨hmore, -⟩
        apply Meets.bind
        exact .span fun _ => hg.operators limit _ _ mid' rest hmore hrest

theorem suffixesRule {s : Suffixed} {before after : SuffixedForm}
    (hform : s.HasForm before)
    (h : Derives true (.suffixes before after) ks rest)
    (hrest : AfterSuffixes rest) :
    Meets (g.suffixesRule s) ks fun s' mid => mid = rest ∧ s'.HasForm after := by
  cases h with
  | noSuffix =>
      apply Meets.onToken_other
      · intro t ht
        have hkind := hrest _ ht
        split <;> first | rfl | simp_all [TokenKind.startsSuffix]
      · split
        · exact .bind (.span fun _ => .pure ⟨rfl, by cases before <;> exact hform⟩)
        · exact .bind (.span fun _ => .pure ⟨rfl, by cases before <;> exact hform⟩)
  | dot hsuffixes =>
      apply Meets.onToken_cons
      intro t hkind
      refine ⟨_, by rw [hkind], ?_⟩
      apply Meets.bind
      apply Meets.expectName_cons
      intro ident
      exact hg.suffixes _ _ _ _ _ (s.hasForm_dot ident) hsuffixes hrest
  | bracket hexpression hsuffixes =>
      apply Meets.onToken_cons
      intro t hkind
      refine ⟨_, by rw [hkind], ?_⟩
      apply Meets.bind
      apply Meets.peek
      intro key _
      refine .andThen
        (hg.wholeExpression hexpression (afterExpression_cons rfl)) fun index => ?_
      apply Meets.bind
      apply Meets.closeSymbol_cons
      exact hg.suffixes _ _ _ _ _ (s.hasForm_bracket _ index) hsuffixes hrest
  | method harguments hsuffixes =>
      apply Meets.onToken_cons
      intro t hkind
      refine ⟨_, by rw [hkind], ?_⟩
      apply Meets.bind
      apply Meets.expectName_cons
      intro _
      refine .andThen (hg.arguments harguments) fun _ => ?_
      exact hg.suffixes _ _ _ _ _ s.hasForm_call hsuffixes hrest
  | call harguments hsuffixes =>
      obtain ⟨k, tail, rfl, hk⟩ := harguments.arguments_head
      apply Meets.onToken_cons
      rintro t rfl
      refine ⟨(do g.argumentsFrom t; g.suffixes s.call), ?_, ?_⟩
      · rcases hk with hk | hk | hk <;> rw [hk]
      · apply Meets.bind
        apply (hg.argumentsFrom harguments).mono
        rintro _ _ rfl
        exact hg.suffixes _ _ _ _ _ s.hasForm_call hsuffixes hrest

theorem valuesRule (h : Derives true .values ks rest)
    (hrest : AfterExpression rest) (hcomma : rest.head? ≠ some (.symbol .comma)) :
    Meets (g.valuesRule owned) ks fun _ mid => mid = rest := by
  cases h with
  | value hexpression =>
      apply Meets.bind
      apply Meets.within
      apply (hg.expressionRule hexpression hrest).mono
      rintro value mid ⟨hmore, hlooser⟩
      obtain rfl := hmore.eq_of_looserThan_zero hlooser
      apply Meets.onToken_other
      · intro t ht
        have hkind : t.kind ≠ .symbol .comma := fun hkind => hcomma (hkind ▸ ht)
        exact if_neg hkind
      · exact .pure rfl
  | values hexpression hvalues =>
      apply Meets.bind
      apply Meets.within
      apply (hg.expressionRule hexpression (afterExpression_cons rfl)).mono
      rintro value mid ⟨hmore, hlooser⟩
      obtain rfl := hmore.eq_of_looserThan_zero hlooser
      apply Meets.onToken_cons
      intro t hkind
      refine ⟨_, if_pos hkind, ?_⟩
      refine .andThen (hg.values owned _ _ hvalues hrest hcomma) fun _ => ?_
      exact .pure rfl

/-! ## Table constructors -/

theorem entryValue {head : FieldHead} (h : Derives true .expression ks rest)
    (hrest : AfterExpression rest) :
    Meets (Grammar.entryValue head (g.expression 0 true)) ks fun _ mid =>
      mid = rest :=
  .wrap (hg.wholeExpression h hrest)

theorem entry (h : Derives true .entry ks rest) (hrest : AfterExpression rest)
    (hassign : rest.head? ≠ some (.symbol .assign)) :
    Meets g.entry ks fun _ mid => mid = rest := by
  apply Meets.bind
  apply Meets.here
  intro pos
  apply Meets.bind
  apply Meets.peekSecond
  intro second hsecond
  cases h with
  | keyedEntry hkey hvalue =>
      apply Meets.onToken_cons
      intro t hkind
      refine ⟨_, by rw [hkind], ?_⟩
      apply Meets.bind
      apply Meets.peek
      intro key _
      apply Meets.bind
      apply Meets.here
      intro keyPos
      refine .andThen (hg.wholeExpression hkey (afterExpression_cons rfl))
        fun index => ?_
      apply Meets.bind
      apply Meets.closeSymbol_cons
      apply Meets.bind
      apply Meets.expectSymbol_cons
      refine .andThen (hg.entryValue hvalue hrest) fun _ => ?_
      exact .pure rfl
  | namedEntry hvalue =>
      have hnext : second.any (·.kind == .symbol .assign) = true := by
        cases second with
        | none => simp at hsecond
        | some t => simpa using hsecond
      apply Meets.onToken_cons
      intro t hkind
      refine ⟨_, by rw [hkind]; exact if_pos hnext, ?_⟩
      apply Meets.bind
      apply Meets.skip
      refine .andThen (hg.entryValue hvalue hrest) fun _ => ?_
      exact .pure rfl
  | entry hvalue =>
      obtain ⟨k, tail, rfl, hk⟩ := hvalue.expression_head
      apply Meets.onToken_other
      · intro t ht
        obtain rfl : k = t.kind := by simpa using ht
        have hbracket := (TokenKind.startsExpression_excludes hk).2.2.2.2
        split
        next hname =>
          -- with an equality sign behind the name the expression would end
          -- before the sign
          split
          next hsign =>
            obtain ⟨tail, rfl⟩ : ∃ tail', tail = .symbol .assign :: tail' := by
              cases second <;> cases tail <;> simp_all
            rw [hname] at hvalue
            have hsplit := hvalue.eq_of_name_assign
            exact absurd (by simp [hsplit]) hassign
          next => rfl
        next hopen => exact absurd hopen hbracket
        next => rfl
      · apply Meets.bind
        apply Meets.wrap
        apply (hg.expressionRule hvalue hrest).mono
        rintro _ mid ⟨hmore, hlooser⟩
        obtain rfl := hmore.eq_of_looserThan_zero hlooser
        exact .pure rfl

omit hg in
theorem tableEnd {post : Unit → List TokenKind → Prop} (h : post () ks) :
    Meets (Grammar.tableEnd : Parser n Unit) ks post :=
  .bind (.here fun _ => .bind (.emit (.emit h)))

theorem entriesRule (h : Derives true .entries ks (.symbol .rightBrace :: rest)) :
    Meets g.entriesRule ks fun _ mid => mid = .symbol .rightBrace :: rest := by
  have hfirst : ∀ {mid}, Derives true .entry ks mid →
      ks.head? ≠ some (.symbol .rightBrace) := by
    intro mid hentry
    obtain ⟨k, tail, rfl, hk⟩ := hentry.entry_head
    simpa using hk
  apply Meets.bind
  apply Meets.nextIs
  cases h with
  | noEntry => exact tableEnd rfl
  | lastEntry hentry =>
      have hbrace : (ks.head? == some (.symbol .rightBrace)) = false := by
        simpa using hfirst hentry
      rw [hbrace]
      apply Meets.bind
      apply Meets.here
      intro _
      apply Meets.bind
      apply Meets.emit
      refine .andThen
        (hg.entry hentry (afterExpression_cons rfl) (by simp)) fun _ => ?_
      apply Meets.onToken_other
      · intro t ht
        obtain hkind : .symbol .rightBrace = t.kind := by simpa using ht
        simp [← hkind]
      · exact tableEnd rfl
  | entries hsep hentry hentries =>
      have hbrace : (ks.head? == some (.symbol .rightBrace)) = false := by
        simpa using hfirst hentry
      rw [hbrace]
      apply Meets.bind
      apply Meets.here
      intro _
      apply Meets.bind
      apply Meets.emit
      apply Meets.bind
      have hafter := hg.entry hentry
        (by rcases hsep with rfl | rfl <;> exact afterExpression_cons rfl)
        (by rcases hsep with rfl | rfl <;> simp)
      apply hafter.mono
      rintro _ _ rfl
      apply Meets.onToken_cons
      intro t hkind
      refine ⟨_, if_pos (by rcases hsep with rfl | rfl <;> simp [hkind]), ?_⟩
      exact hg.entries _ _ hentries

/-! ## Statements -/

theorem scopedBlock (h : Derives true .block ks rest)
    (hrest : rest.head?.all (·.endsBlock)) :
    Meets g.scopedBlock ks fun _ mid => mid = rest :=
  .within (hg.block ks rest h hrest)

theorem branch {mid : List TokenKind}
    (hcondition : Derives true .expression ks (.keyword .then_ :: mid))
    (hblock : Derives true .block mid rest)
    (hrest : rest.head?.all (·.endsBlock)) :
    Meets g.branch ks fun _ mid' => mid' = rest := by
  refine .andThen (hg.wholeExpression hcondition (afterExpression_cons rfl))
    fun _ => ?_
  apply Meets.bind
  apply Meets.expectKeyword_cons
  exact hg.scopedBlock hblock hrest

theorem branchesRule (h : Derives true .branches ks (.keyword .end_ :: rest)) :
    Meets g.branchesRule ks fun _ mid => mid = .keyword .end_ :: rest := by
  cases h with
  | noBranch =>
      apply Meets.onToken_other
      · intro t ht
        obtain hkind : .keyword .end_ = t.kind := by simpa using ht
        rw [← hkind]
      · exact .pure rfl
  | elseif_ hcondition hblock hbranches =>
      apply Meets.onToken_cons
      intro t hkind
      refine ⟨_, by rw [hkind], ?_⟩
      refine .andThen
        (hg.branch hcondition hblock hbranches.branches_head) fun _ => ?_
      exact hg.branches _ _ hbranches
  | else_ hblock =>
      apply Meets.onToken_cons
      intro t hkind
      refine ⟨_, by rw [hkind], ?_⟩
      exact hg.scopedBlock hblock rfl

theorem forRange {mid mid' : List TokenKind}
    (hfirst : Derives true .expression ks (.symbol .comma :: mid))
    (hlast : Derives true .expression mid mid')
    (hstep : Derives true .step mid' (.keyword .do_ :: rest)) :
    Meets g.forRange ks fun _ left => left = .keyword .do_ :: rest := by
  refine .andThen
    (hg.wholeExpression hfirst (afterExpression_cons rfl)) fun _ => ?_
  apply Meets.bind
  apply Meets.expectSymbol_cons
  cases hstep with
  | noStep =>
      refine .andThen
        (hg.wholeExpression hlast (afterExpression_cons rfl)) fun _ => ?_
      apply Meets.bind
      exact .accept_other (by simp) (.pure rfl)
  | byStep hstep =>
      refine .andThen
        (hg.wholeExpression hlast (afterExpression_cons rfl)) fun _ => ?_
      apply Meets.bind
      apply Meets.accept_cons
      refine .andThen
        (hg.wholeExpression hstep (afterExpression_cons rfl)) fun _ => ?_
      exact .pure rfl

theorem forIn {mid : List TokenKind}
    (hnames : Derives true .moreNames ks (.keyword .in_ :: mid))
    (hvalues : Derives true .values mid (.keyword .do_ :: rest)) :
    Meets g.forClause ks fun _ left => left = .keyword .do_ :: rest := by
  have hassign : ks.head? ≠ some (.symbol .assign) := by
    cases hnames <;> simp
  have hnext :
      (ks.head? == some (.symbol .comma) || ks.head? == some (.keyword .in_)) =
        true := by
    cases hnames <;> simp
  apply Meets.bind
  apply Meets.accept_other hassign
  apply Meets.bind
  apply Meets.nextIs
  apply Meets.bind
  apply Meets.nextIs
  simp only [hnext, if_true]
  refine .andThen (moreNames_complete n hnames) fun _ => ?_
  apply Meets.bind
  apply Meets.expectKeyword_cons
  refine .andThen
    (hg.values false _ _ hvalues (afterExpression_cons rfl) (by simp)) fun _ => ?_
  exact .pure rfl

theorem functionRest {isLocal : Bool} {opening : Pos} {ident : Ident}
    {name : FunctionName} (h : Derives true .body ks rest) :
    Meets (g.functionRest isLocal opening ident name) ks fun _ mid =>
      mid = rest := by
  apply Meets.bind
  apply (header_complete h).mono
  rintro head mid ⟨line, hline, hblock⟩
  dsimp only
  rw [hline]
  apply Meets.bind
  apply Meets.wrap
  refine .andThen (hg.functionBody hblock) fun _ => ?_
  exact .last fun _ => .pure rfl

theorem functionStatement {opening : Pos} {mid : List TokenKind}
    (hname : Derives true .functionName ks mid)
    (hbody : Derives true .body mid rest) :
    Meets (g.functionStatement opening) ks fun _ left => left = rest := by
  have hparen : mid.head? = some (.symbol .leftParen) := by
    cases hbody <;> rfl
  cases hname with
  | functionName hparts =>
      apply Meets.bind
      apply Meets.expectName_cons
      intro first
      refine .andThen (dottedNames_complete n hparts (by simp [hparen]))
        fun more => ?_
      apply Meets.bind
      apply Meets.accept_other (by simp [hparen])
      exact hg.functionRest hbody
  | methodName hparts =>
      apply Meets.bind
      apply Meets.expectName_cons
      intro first
      refine .andThen (dottedNames_complete n hparts (by simp)) fun more => ?_
      apply Meets.bind
      apply Meets.accept_cons
      apply Meets.bind
      apply Meets.expectName_cons
      intro method
      exact hg.functionRest hbody

theorem assigned {f : List Node → Option (List Value) → Node}
    (h : Derives true .values ks rest)
    (hrest : rest.head? = some (.symbol .semicolon)) :
    Meets (g.assigned f) ks fun _ mid => mid = rest := by
  apply Meets.bind
  apply Meets.wrap
  apply (hg.values true ks rest h (.of_semicolon hrest) (by simp [hrest])).mono
  rintro _ _ rfl
  exact .pure rfl

theorem localFunction (h : Derives true .body ks rest) :
    Meets g.localStatement (.keyword .function_ :: .name :: ks) fun _ mid =>
      mid = rest := by
  apply Meets.bind
  apply Meets.here
  intro pos
  apply Meets.bind
  apply Meets.accept_cons
  apply Meets.bind
  apply Meets.expectName_cons
  intro ident
  exact hg.functionRest h

omit hg in
theorem localNames {mid : List TokenKind} (h : Derives true .localNames ks mid)
    (hless : mid.head? ≠ some (.symbol .less))
    (hcomma : mid.head? ≠ some (.symbol .comma))
    (hinit : ∀ names,
      Meets (do
        if ← accept (.symbol .assign) then g.assigned (.locals names)
        else emit (.locals names [] (some []))) mid fun _ left => left = rest) :
    Meets g.localStatement ks fun _ left => left = rest := by
  have hfunction : ks.head? ≠ some (.keyword .function_) := by
    cases h <;> simp
  apply Meets.bind
  apply Meets.here
  intro pos
  apply Meets.bind
  apply Meets.accept_other hfunction
  refine .andThen (localNames_complete n h hless hcomma) fun names => ?_
  exact hinit names

theorem targetsRule
    (h : Derives true .moreVariables ks (.symbol .assign :: rest)) :
    Meets g.targetsRule ks fun targets mid =>
      mid = .symbol .assign :: rest ∧ targets.all (·.isAssignable) := by
  cases h with
  | noMoreVariables =>
      apply Meets.onToken_other
      · intro t ht
        obtain hkind : .symbol .assign = t.kind := by simpa using ht
        simp [← hkind]
      · exact .pure ⟨rfl, rfl⟩
  | moreVariables hsuffixed hmore =>
      apply Meets.onToken_cons
      intro t hkind
      refine ⟨_, if_pos hkind, ?_⟩
      apply Meets.bind
      apply (hg.suffixed hsuffixed hmore.afterSuffixes_of_moreVariables).mono
      rintro target _ ⟨rfl, hform⟩
      apply Meets.bind
      apply (hg.targets _ _ hmore).mono
      rintro targets _ ⟨rfl, htargets⟩
      exact .pure ⟨rfl, by simp [hform.1, htargets]⟩

theorem assignment {mid mid' : List TokenKind}
    (hfirst : Derives true (.suffixed .variable_) (t.kind :: ks) mid)
    (hmore : Derives true .moreVariables mid (.symbol .assign :: mid'))
    (hvalues : Derives true .values mid' rest)
    (hrest : rest.head? = some (.symbol .semicolon)) :
    Meets (g.expressionStatement t) ks fun _ left => left = rest := by
  have hnext :
      (mid.head? == some (.symbol .assign) || mid.head? ==
        some (.symbol .comma)) = true := by
    cases hmore <;> simp
  apply Meets.bind
  apply (hg.suffixedFrom hfirst hmore.afterSuffixes_of_moreVariables).mono
  rintro first _ ⟨rfl, hform⟩
  apply Meets.bind
  apply Meets.nextIs
  apply Meets.bind
  apply Meets.nextIs
  simp only [hnext, if_true]
  apply Meets.bind
  apply (hg.targets _ _ hmore).mono
  rintro targets _ ⟨rfl, htargets⟩
  have hall : (first :: targets).all (·.isAssignable) = true := by
    simp [hform.1, htargets]
  simp only [hall, if_true]
  apply Meets.bind
  apply Meets.expectSymbol_cons
  exact hg.assigned hvalues hrest

theorem callStatement (h : Derives true (.suffixed .call) (t.kind :: ks) rest)
    (hrest : rest.head? = some (.symbol .semicolon)) :
    Meets (g.expressionStatement t) ks fun _ mid => mid = rest := by
  apply Meets.bind
  apply (hg.suffixedFrom h (AfterExpression.of_semicolon hrest).afterSuffixes).mono
  rintro first _ ⟨rfl, hform⟩
  apply Meets.bind
  apply Meets.nextIs
  apply Meets.bind
  apply Meets.nextIs
  have hcall : first.isCall = true := hform.2
  simp only [hrest, hcall]
  exact .pure rfl

omit hg in
theorem statementFrom_eq {k : TokenKind} (hkind : t.kind = k)
    (hk : k = .name ∨ k = .symbol .leftParen) :
    g.statementFrom t = g.expressionStatement t := by
  unfold Grammar.statementFrom
  rcases hk with rfl | rfl
  · rw [hkind]
  · rw [hkind]

theorem statementFrom (h : Derives true .statement (t.kind :: ks) rest)
    (hrest : t.kind = .symbol .semicolon ∨
      rest.head? = some (.symbol .semicolon)) :
    Meets (g.statementFrom t) ks fun _ mid => mid = rest := by
  generalize hkind : t.kind = kind at h hrest
  cases h with
  | assign hfirst hmore hvalues =>
      obtain ⟨k, tail, hhead, hk⟩ := hfirst.suffixed_head
      obtain ⟨rfl, -⟩ : kind = k ∧ ks = tail := by simpa using hhead
      have hsemicolon : rest.head? = some (.symbol .semicolon) := by
        rcases hk with rfl | rfl <;> simpa using hrest
      rw [statementFrom_eq hkind hk]
      exact hg.assignment (hkind ▸ hfirst) hmore hvalues hsemicolon
  | callStatement hcall =>
      obtain ⟨k, tail, hhead, hk⟩ := hcall.suffixed_head
      obtain ⟨rfl, -⟩ : kind = k ∧ ks = tail := by simpa using hhead
      have hsemicolon : rest.head? = some (.symbol .semicolon) := by
        rcases hk with rfl | rfl <;> simpa using hrest
      rw [statementFrom_eq hkind hk]
      exact hg.callStatement (hkind ▸ hcall) hsemicolon
  | empty =>
      unfold Grammar.statementFrom
      rw [hkind]
      exact .pure rfl
  | break_ =>
      unfold Grammar.statementFrom
      rw [hkind]
      exact .pure rfl
  | label =>
      unfold Grammar.statementFrom
      rw [hkind]
      apply Meets.bind
      apply Meets.expectName_cons
      intro _
      exact .expectSymbol_cons rfl
  | goto_ =>
      unfold Grammar.statementFrom
      rw [hkind]
      apply Meets.bind
      apply Meets.expectName_cons
      intro _
      exact .pure rfl
  | do_ hblock =>
      unfold Grammar.statementFrom
      rw [hkind]
      refine .andThen (hg.scopedBlock hblock rfl) fun _ => ?_
      exact .bind (.emit (.closeKeyword_cons rfl))
  | while_ hcondition hblock =>
      unfold Grammar.statementFrom
      rw [hkind]
      refine .andThen (hg.wholeExpression hcondition (afterExpression_cons rfl))
        fun _ => ?_
      apply Meets.bind
      apply Meets.expectKeyword_cons
      refine .andThen (hg.scopedBlock hblock rfl) fun _ => ?_
      exact .bind (.emit (.closeKeyword_cons rfl))
  | repeat_ hblock hcondition =>
      have hsemicolon : rest.head? = some (.symbol .semicolon) := by
        simpa using hrest
      unfold Grammar.statementFrom
      rw [hkind]
      apply Meets.bind
      apply Meets.within
      refine .andThen (hg.block _ _ hblock rfl) fun _ => ?_
      apply Meets.bind
      apply Meets.closeKeyword_cons
      refine .andThen (hg.wholeExpression hcondition (.of_semicolon hsemicolon))
        fun _ => ?_
      exact .pure (.emit rfl)
  | if_ hcondition hblock hbranches =>
      unfold Grammar.statementFrom
      rw [hkind]
      refine .andThen
        (hg.branch hcondition hblock hbranches.branches_head) fun _ => ?_
      refine .andThen (hg.branches _ _ hbranches) fun _ => ?_
      exact .bind (.emit (.closeKeyword_cons rfl))
  | forRange hfirst hlast hstep hblock =>
      unfold Grammar.statementFrom
      rw [hkind]
      apply Meets.bind
      apply Meets.expectName_cons
      intro _
      apply Meets.bind
      have hclause : Meets g.forClause _ fun _ left => left = _ :=
        .bind (.accept_cons (hg.forRange hfirst hlast hstep))
      apply hclause.mono
      rintro _ _ rfl
      apply Meets.bind
      apply Meets.expectKeyword_cons
      refine .andThen (hg.scopedBlock hblock rfl) fun _ => ?_
      exact .bind (.emit (.closeKeyword_cons rfl))
  | forIn hnames hvalues hblock =>
      unfold Grammar.statementFrom
      rw [hkind]
      apply Meets.bind
      apply Meets.expectName_cons
      intro _
      refine .andThen (hg.forIn hnames hvalues) fun _ => ?_
      apply Meets.bind
      apply Meets.expectKeyword_cons
      refine .andThen (hg.scopedBlock hblock rfl) fun _ => ?_
      exact .bind (.emit (.closeKeyword_cons rfl))
  | function_ hname hbody =>
      unfold Grammar.statementFrom
      rw [hkind]
      exact hg.functionStatement hname hbody
  | localFunction hbody =>
      unfold Grammar.statementFrom
      rw [hkind]
      exact hg.localFunction hbody
  | local_ hnames =>
      have hsemicolon : rest.head? = some (.symbol .semicolon) := by
        simpa using hrest
      unfold Grammar.statementFrom
      rw [hkind]
      apply localNames hnames (by simp [hsemicolon]) (by simp [hsemicolon])
      intro names
      apply Meets.bind
      exact .accept_other (by simp [hsemicolon]) (.emit rfl)
  | localAssign hnames hvalues =>
      have hsemicolon : rest.head? = some (.symbol .semicolon) := by
        simpa using hrest
      unfold Grammar.statementFrom
      rw [hkind]
      apply localNames hnames (by simp) (by simp)
      intro names
      apply Meets.bind
      exact .accept_cons (hg.assigned hvalues hsemicolon)

/-! ## Blocks -/

omit hg in
theorem atBlockEnd {post : Bool → List TokenKind → Prop}
    (h : post (ks.head?.all (·.endsBlock)) ks) :
    Meets (Parser.atBlockEnd : Parser n Bool) ks post := by
  refine .bind (.peek fun t ht => .pure ?_)
  rw [← ht] at h
  cases t with
  | none => exact h
  | some t => exact h

omit hg in
theorem returnEnd (h : ks.head?.all (·.endsBlock)) :
    Meets (n := n)
      (do
        emit (.comments (← here).offset)
        emit .discard
        unless ← Parser.atBlockEnd do fail (.expected .endOfInput))
      ks fun _ mid => mid = ks := by
  apply Meets.bind
  apply Meets.here
  intro _
  apply Meets.bind
  apply Meets.emit
  apply Meets.bind
  apply Meets.emit
  apply Meets.bind
  apply atBlockEnd
  rw [h]
  exact .pure rfl

theorem returnStatement (h : Derives true .result ks rest)
    (hrest : rest.head?.all (·.endsBlock)) :
    Meets g.returnStatement ks fun _ mid => mid = rest := by
  have hsemicolon : rest.head? ≠ some (.symbol .semicolon) := by
    intro hhead
    simp [hhead, TokenKind.endsBlock] at hrest
  apply Meets.bind
  apply atBlockEnd
  apply Meets.bind
  apply Meets.nextIs
  dsimp only
  cases h with
  | resultNone =>
      rw [hrest]
      apply Meets.bind
      apply Meets.accept_other hsemicolon
      exact returnEnd hrest
  | resultSemicolon =>
      simp only [List.head?_cons, BEq.rfl, Bool.or_true, if_true]
      apply Meets.bind
      apply Meets.accept_cons
      exact returnEnd hrest
  | resultValues hvalues =>
      rw [if_neg (hvalues.not_blockEnd)]
      apply Meets.bind
      apply (hg.values false _ _ hvalues (.of_endsBlock hrest) ?_).mono
      · rintro _ _ rfl
        apply Meets.bind
        apply Meets.accept_other hsemicolon
        exact returnEnd hrest
      · intro hhead
        simp [hhead, TokenKind.endsBlock] at hrest
  | resultValuesSemicolon hvalues =>
      rw [if_neg (hvalues.not_blockEnd)]
      refine .andThen
        (hg.values false _ _ hvalues (afterExpression_cons rfl) (by simp))
        fun _ => ?_
      apply Meets.bind
      apply Meets.accept_cons
      exact returnEnd hrest

theorem blockRule (h : Derives true .block ks rest)
    (hrest : rest.head?.all (·.endsBlock)) :
    Meets g.blockRule ks fun _ mid => mid = rest := by
  apply Meets.bind
  apply Meets.here
  intro _
  apply Meets.bind
  apply Meets.emit
  cases h with
  | blockEnd =>
      apply Meets.onToken_other
      · intro t ht
        rw [ht] at hrest
        exact if_pos hrest
      · exact .pure rfl
  | blockReturn hresult =>
      apply Meets.onToken_cons
      intro t hkind
      refine ⟨_,
        (if_neg (by simp [hkind, TokenKind.endsBlock])).trans (if_pos hkind), ?_⟩
      exact hg.returnStatement hresult hrest
  | blockStatement hstatement hseparated hblock =>
      obtain ⟨k, tail, rfl, hends, hreturn⟩ := hstatement.statement_head
      apply Meets.onToken_cons
      rintro t rfl
      refine ⟨_, (if_neg (by simp [hends])).trans (if_neg hreturn), ?_⟩
      apply Meets.bind
      apply Meets.within
      have hafter := (hseparated rfl).imp_left fun hhead => (List.cons.inj hhead).1
      apply (hg.statementFrom hstatement hafter).mono
      rintro _ _ rfl
      exact hg.block _ _ hblock hrest

/-! ## The grammar as a whole -/

theorem step : g.step.Complete where
  expression _ _ _ _ h hrest := hg.expressionRule h hrest
  operators _ _ _ _ _ h hrest := hg.operatorsRule h hrest
  suffixes _ _ _ _ _ hform h hrest := hg.suffixesRule hform h hrest
  values _ _ _ h hrest hcomma := hg.valuesRule h hrest hcomma
  entries _ _ h := hg.entriesRule h
  targets _ _ h := hg.targetsRule h
  branches _ _ h := hg.branchesRule h
  block _ _ h hrest := hg.blockRule h hrest

theorem chunk (h : Derives true .block ks []) :
    Meets g.chunk ks fun _ mid => mid = [] := by
  refine .andThen (hg.block ks [] h rfl) fun _ => ?_
  apply Meets.bind
  apply Meets.peek
  intro t ht
  obtain rfl : t = none := by
    cases t <;> simp_all
  exact .pure rfl

end Complete

theorem complete_upTo (n : Nat) : (upTo n).Complete := by
  induction n with
  | zero =>
      constructor <;> intros <;> exact fun _ c _ =>
        (Nat.not_lt_zero _ c.bound).elim
  | succ n ih => exact ih.step

end Grammar

end LuaGloss

import LuaGloss.Proofs.Syntax.Comparison

/-!
# Comparing grammars

The rules of the grammar, checked one by one against the clauses of a
comparison: each rule relates the parsers of two grammars, given that the
parsers for fewer tokens are related.  The two grammars may have different
bounds, and nothing is said of the parsers that they start from.
-/

namespace LuaGloss

/-! ## Suffixed expressions -/

namespace Suffixed.Rel

variable {V : Value → Value → Prop} {s s' : Suffixed}

theorem extendPath (h : s.Rel V s') (ident : Ident) :
    (s.extendPath ident).Rel V (s'.extendPath ident) := by
  unfold Suffixed.extendPath
  rw [← h.path]
  split
  · exact h
  · exact ⟨h.start, rfl, rfl, h.index, h.isCall, h.isAssignable,
      h.isNameChain, h.value⟩

theorem dot (h : s.Rel V s') (hnone : V .none .none) (ident : Ident) :
    (s.dot ident).Rel V (s'.dot ident) :=
  have hpath := h.extendPath ident
  ⟨hpath.start, hpath.path, hpath.pos, hnone, rfl, rfl, hpath.isNameChain,
    hpath.value⟩

theorem bracket (h : s.Rel V s') (key : Option Ident) {index index' : Value}
    (hindex : V index index') :
    (s.bracket key index).Rel V (s'.bracket key index') := by
  cases key with
  | none => exact ⟨h.start, rfl, h.pos, hindex, rfl, rfl, rfl, h.value⟩
  | some ident =>
      have hpath := h.extendPath ident
      exact ⟨hpath.start, hpath.path, hpath.pos, hindex, rfl, rfl, rfl,
        hpath.value⟩

theorem call (h : s.Rel V s') (hnone : V .none .none) : s.call.Rel V s'.call :=
  ⟨h.start, rfl, h.pos, hnone, rfl, rfl, rfl, h.value⟩

theorem all_isAssignable {ss ss' : List Suffixed}
    (h : List.Forall₂ (Suffixed.Rel V) ss ss') :
    ss.all (·.isAssignable) = ss'.all (·.isAssignable) := by
  induction h with
  | nil => rfl
  | cons hs _ ih => simp [hs.isAssignable, ih]

end Suffixed.Rel

/-! ## Expressions -/

namespace Grammar

/-- Two records of parsers of which each is related to its counterpart. -/
structure Related (C : Parser.Comparison) (g : Grammar n) (g' : Grammar m) :
    Prop where
  expression (limit : Nat) (owned : Bool) :
    C.rel C.value (g.expression limit owned) (g'.expression limit owned)
  operators (limit : Nat) (start : Pos) {operand operand' : Value}
    (h : C.value operand operand') :
    C.rel C.value (g.operators limit start operand)
      (g'.operators limit start operand')
  suffixes {s s' : Suffixed} (h : s.Rel C.value s') :
    C.rel (Suffixed.Rel C.value) (g.suffixes s) (g'.suffixes s')
  values (owned : Bool) :
    C.rel (List.Forall₂ C.value) (g.values owned) (g'.values owned)
  entries : C.rel Eq g.entries g'.entries
  targets : C.rel (List.Forall₂ (Suffixed.Rel C.value)) g.targets g'.targets
  branches : C.rel Eq g.branches g'.branches
  block : C.rel Eq g.block g'.block

theorem Related.absurd {C : Parser.Comparison} (g : Grammar n) (g' : Grammar m)
    (h : n = 0 ∨ m = 0) : g.Related C g' := by
  constructor <;> intros <;> exact C.absurd _ _ h

namespace Related

variable {C : Parser.Comparison} {g : Grammar n} {g' : Grammar m}
  (hg : g.Related C g')

include hg

theorem functionBody (owned : Bool) (line : Nat) (opening : Pos) :
    C.rel Eq (g.functionBody owned line opening)
      (g'.functionBody owned line opening) :=
  (C.within (.body owned line) hg.block).then_ fun _ => C.closeKeyword _ _ _

theorem tableBody (owned : Bool) (opening : Pos) :
    C.rel Eq (g.tableBody owned opening) (g'.tableBody owned opening) :=
  (C.within (.table owned) hg.entries).then_ fun _ => C.closeSymbol _ _ _

variable {t t' : Token} (ht : C.token t t')

include ht in
theorem argumentsFrom : C.rel Eq (g.argumentsFrom t) (g'.argumentsFrom t') := by
  unfold Grammar.argumentsFrom
  rw [← C.token_kind ht, ← C.token_pos ht]
  split
  · exact C.pure rfl
  · exact hg.tableBody _ _
  · refine (C.nextIs _).then_ fun isEmpty => ?_
    dsimp only
    split
    · exact C.closeSymbol _ _ _
    · exact C.bind (hg.values false) fun _ _ _ => C.closeSymbol _ _ _
  · exact C.failAt _ ht

theorem arguments : C.rel Eq g.arguments g'.arguments := by
  refine C.bind C.peek fun t t' ht => ?_
  cases ht with
  | none => exact C.fail _
  | some ht => exact C.skip.then_ fun _ => hg.argumentsFrom ht

include ht in
theorem suffixedFrom :
    C.rel (Suffixed.Rel C.value) (g.suffixedFrom t) (g'.suffixedFrom t') := by
  have hnone := C.value_none
  unfold Grammar.suffixedFrom
  rw [← C.token_kind ht, ← C.token_pos ht, ← C.token_value ht]
  split
  · exact hg.suffixes ⟨rfl, rfl, rfl, hnone, rfl, rfl, rfl, hnone⟩
  · refine C.bind (hg.expression 0 false) fun _ _ _ =>
      (C.closeSymbol _ _ _).then_ fun _ => ?_
    exact hg.suffixes ⟨rfl, rfl, rfl, hnone, rfl, rfl, rfl, hnone⟩
  · exact C.failAt _ ht

theorem suffixed : C.rel (Suffixed.Rel C.value) g.suffixed g'.suffixed := by
  refine C.bind C.peek fun t t' ht => ?_
  cases ht with
  | none => exact C.fail _
  | some ht => exact C.skip.then_ fun _ => hg.suffixedFrom ht

include ht in
theorem simpleFrom (owned : Bool) :
    C.rel C.value (g.simpleFrom owned t) (g'.simpleFrom owned t') := by
  unfold Grammar.simpleFrom
  rw [← C.token_kind ht, ← C.token_pos ht]
  split
  · exact C.span _ _
  · split
    · exact C.span _ _
    · exact (hg.tableBody _ _).then_ fun _ => C.span _ _
    · refine C.bind C.header fun head head' hhead => ?_
      cases hhead with
      | broken he => exact C.throw he
      | complete => exact (hg.functionBody _ _ _).then_ fun _ => C.span _ _
    · exact C.bind (hg.suffixedFrom ht) fun s s' hs => C.pure hs.value

include ht in
theorem operandFrom (owned : Bool) :
    C.rel C.value (g.operandFrom owned t) (g'.operandFrom owned t') := by
  unfold Grammar.operandFrom
  rw [← C.token_kind ht, ← C.token_pos ht]
  split
  · exact C.bind (hg.expression _ _) fun _ _ _ => C.span _ _
  · exact hg.simpleFrom ht owned

theorem expressionRule (limit : Nat) (owned : Bool) :
    C.rel C.value (g.expressionRule limit owned)
      (g'.expressionRule limit owned) := by
  refine C.onToken (fun t t' ht => ?_) (C.fail _)
  refine .some
    (C.bind (hg.operandFrom ht owned) fun operand operand' hoperand => ?_)
  rw [← C.token_pos ht]
  exact hg.operators limit t.pos hoperand

theorem operatorsRule (limit : Nat) (start : Pos) {operand operand' : Value}
    (h : C.value operand operand') :
    C.rel C.value (g.operatorsRule limit start operand)
      (g'.operatorsRule limit start operand') := by
  refine C.onToken (fun t t' ht => ?_) (C.pure h)
  rw [← C.token_kind ht]
  split
  · split
    · exact .none
    · exact .some (C.bind (hg.expression _ _) fun _ _ _ =>
        C.bind (C.span _ _) fun _ _ hv => hg.operators limit start hv)
  · exact .none

omit hg in
theorem keyIdent?_eq {key key' : Option Token}
    (hkey : Option.Rel C.token key key') {index index' : Value}
    (hindex : C.value index index') :
    keyIdent? key index = keyIdent? key' index' := by
  cases hkey with
  | none => rfl
  | some ht =>
      simp only [keyIdent?, C.token_kind ht, C.token_value ht, C.token_pos ht,
        C.value_shape hindex]

theorem suffixesRule {s s' : Suffixed} (h : s.Rel C.value s') :
    C.rel (Suffixed.Rel C.value) (g.suffixesRule s) (g'.suffixesRule s') := by
  have hcall := h.call C.value_none
  refine C.onToken (fun t t' ht => ?_) ?_
  · rw [← C.token_kind ht, ← C.token_pos ht]
    split
    · exact .some (C.expectName.then_ fun ident =>
        hg.suffixes (h.dot C.value_none ident))
    · refine .some (C.bind C.peek fun key key' hkey =>
        C.bind (hg.expression 0 false) fun index index' hindex => ?_)
      refine (C.closeSymbol _ _ _).then_ fun _ => hg.suffixes ?_
      rw [keyIdent?_eq hkey hindex]
      exact h.bracket _ hindex
    · exact .some (C.expectName.then_ fun _ => hg.arguments.then_ fun _ =>
        hg.suffixes hcall)
    · exact .some ((hg.argumentsFrom ht).then_ fun _ => hg.suffixes hcall)
    · exact .some ((hg.argumentsFrom ht).then_ fun _ => hg.suffixes hcall)
    · exact .some ((hg.argumentsFrom ht).then_ fun _ => hg.suffixes hcall)
    · exact .none
  · rw [← h.isNameChain, ← h.start, ← h.path]
    split
    · refine C.bind (C.span _ _) fun v v' hv => C.pure ?_
      exact ⟨rfl, rfl, h.pos, h.index, h.isCall, h.isAssignable, rfl,
        C.value_ref _ hv⟩
    · refine C.bind (C.span _ _) fun v v' hv => C.pure ?_
      exact ⟨rfl, rfl, h.pos, h.index, h.isCall, h.isAssignable, rfl, hv⟩

theorem valuesRule (owned : Bool) :
    C.rel (List.Forall₂ C.value) (g.valuesRule owned) (g'.valuesRule owned) := by
  refine C.bind (C.within .value (hg.expressionRule 0 owned))
    fun value value' hvalue =>
    C.onToken (fun t t' ht => ?_) (C.pure (.cons hvalue .nil))
  rw [← C.token_kind ht]
  split
  · exact .some (C.bind (hg.values owned) fun more more' hmore =>
      C.pure (.cons hvalue hmore))
  · exact .none

/-! ## Table constructors -/

theorem entry : C.rel Eq g.entry g'.entry := by
  refine C.here.then_ fun pos =>
    C.bind C.peekSecond fun second second' hsecond =>
    C.onToken (fun t t' ht => ?_) ?_
  · have hassign : (second.any (·.kind == .symbol .assign)) =
        second'.any (·.kind == .symbol .assign) := by
      cases hsecond with
      | none => rfl
      | some ht => simp [C.token_kind ht]
    rw [← C.token_kind ht, ← C.token_value ht, ← C.token_pos ht, ← hassign]
    split
    · split
      · refine .some (C.skip.then_ fun _ => ?_)
        exact C.bind (C.entry C.value_none (hg.expression 0 true)) fun _ _ _ =>
          C.pure rfl
      · exact .none
    · refine .some (C.bind C.peek fun key key' hkey =>
        C.here.then_ fun keyPos => ?_)
      refine C.bind (hg.expression 0 false) fun index index' hindex => ?_
      refine (C.closeSymbol _ _ _).then_ fun _ =>
        (C.expectSymbol _).then_ fun _ => ?_
      rw [keyIdent?_eq hkey hindex]
      exact C.bind (C.entry hindex (hg.expression 0 true)) fun _ _ _ => C.pure rfl
    · exact .none
  · exact C.bind (C.entry C.value_none (hg.expressionRule 0 true)) fun _ _ _ =>
      C.pure rfl

omit hg in
theorem tableEnd :
    C.rel Eq (Grammar.tableEnd : Parser n _) (Grammar.tableEnd : Parser m _) :=
  C.mark .tableComments (C.emit .tableEnd)

theorem entriesRule : C.rel Eq g.entriesRule g'.entriesRule := by
  refine (C.nextIs _).then_ fun isEmpty => ?_
  split
  · exact tableEnd
  · refine C.mark .tableComments (hg.entry.then_ fun _ =>
      C.onToken (fun t t' ht => ?_) tableEnd)
    rw [← C.token_kind ht]
    split
    · exact .some hg.entries
    · exact .none

/-! ## Statements -/

theorem scopedBlock : C.rel Eq g.scopedBlock g'.scopedBlock :=
  C.within .scope hg.block

theorem branch : C.rel Eq g.branch g'.branch :=
  C.bind (hg.expression 0 false) fun _ _ _ => (C.expectKeyword _).then_ fun _ =>
    hg.scopedBlock

theorem branchesRule : C.rel Eq g.branchesRule g'.branchesRule := by
  refine C.onToken (fun t t' ht => ?_) (C.pure rfl)
  rw [← C.token_kind ht]
  split
  · exact .some (hg.branch.then_ fun _ => hg.branches)
  · exact .some hg.scopedBlock
  · exact .none

theorem forRange : C.rel Eq g.forRange g'.forRange := by
  refine C.bind (hg.expression 0 false) fun _ _ _ =>
    (C.expectSymbol _).then_ fun _ => ?_
  refine C.bind (hg.expression 0 false) fun _ _ _ =>
    (C.accept _).then_ fun hasStep => ?_
  split
  · exact C.bind (hg.expression 0 false) fun _ _ _ => C.pure rfl
  · exact C.pure rfl

theorem forClause : C.rel Eq g.forClause g'.forClause := by
  refine (C.accept _).then_ fun isRange => ?_
  split
  · exact hg.forRange
  · refine (C.nextIs _).then_ fun hasComma => (C.nextIs _).then_ fun hasIn => ?_
    split
    · refine (C.moreNames n m).then_ fun _ => (C.expectKeyword _).then_ fun _ => ?_
      exact C.bind (hg.values false) fun _ _ _ => C.pure rfl
    · exact C.fail _

theorem functionRest (isLocal : Bool) (opening : Pos) (ident : Ident)
    (name : FunctionName) :
    C.rel Eq (g.functionRest isLocal opening ident name)
      (g'.functionRest isLocal opening ident name) := by
  refine C.bind C.header fun read read' hread => ?_
  cases hread with
  | broken he => exact (C.emit (.function _)).then_ fun _ => C.throw he
  | complete =>
      exact (C.function ((hg.functionBody _ _ _).then_ fun _ => C.last)).then_
        fun _ => C.pure rfl

theorem functionStatement (opening : Pos) :
    C.rel Eq (g.functionStatement opening) (g'.functionStatement opening) := by
  refine C.expectName.then_ fun first => (C.dottedNames n m).then_ fun more =>
    (C.accept _).then_ fun isMethod => ?_
  split
  · exact C.expectName.then_ fun _ => hg.functionRest _ _ _ _
  · exact hg.functionRest _ _ _ _

theorem localStatement : C.rel Eq g.localStatement g'.localStatement := by
  refine C.here.then_ fun pos => (C.accept _).then_ fun isFunction => ?_
  split
  · exact C.expectName.then_ fun _ => hg.functionRest _ _ _ _
  · refine (C.localNames n m).then_ fun names =>
      (C.accept _).then_ fun hasValues => ?_
    split
    · exact C.bind (C.locals (hg.values true)) fun _ _ _ => C.pure rfl
    · exact C.emit (.locals names)

theorem targetsRule :
    C.rel (List.Forall₂ (Suffixed.Rel C.value)) g.targetsRule g'.targetsRule := by
  refine C.onToken (fun t t' ht => ?_) (C.pure .nil)
  rw [← C.token_kind ht]
  split
  · exact .some (C.bind hg.suffixed fun _ _ htarget =>
      C.bind hg.targets fun _ _ hmore => C.pure (.cons htarget hmore))
  · exact .none

include ht in
theorem expressionStatement :
    C.rel Eq (g.expressionStatement t) (g'.expressionStatement t') := by
  refine C.bind (hg.suffixedFrom ht) fun first first' hfirst => ?_
  refine (C.nextIs _).then_ fun isAssign => (C.nextIs _).then_ fun isComma => ?_
  split
  · refine C.bind hg.targets fun more more' hmore => ?_
    have htargets := List.Forall₂.cons hfirst hmore
    have hvalues : C.rel Eq
        (do
          Parser.expectSymbol .assign
          g.assigned (.assign ((first :: more).map (·.target))))
        (do
          Parser.expectSymbol .assign
          g'.assigned (.assign ((first' :: more').map (·.target)))) :=
      (C.expectSymbol _).then_ fun _ =>
        C.bind (C.assign htargets (hg.values true)) fun _ _ _ => C.pure rfl
    dsimp only
    rw [← Suffixed.Rel.all_isAssignable htargets]
    split
    · exact hvalues
    · exact (C.fail _).then_ fun _ => hvalues
  · rw [← hfirst.isCall]
    split
    · exact C.pure rfl
    · exact C.fail _

include ht in
theorem statementFrom : C.rel Eq (g.statementFrom t) (g'.statementFrom t') := by
  -- the end of a statement with a block
  have hclose (opener : Keyword) (line : Nat) : C.rel Eq
      (do Parser.emit .forget; Parser.closeKeyword .end_ opener line :
        Parser n Unit)
      (do Parser.emit .forget; Parser.closeKeyword .end_ opener line :
        Parser m Unit) :=
    (C.emit .forget).then_ fun _ => C.closeKeyword _ _ _
  unfold Grammar.statementFrom
  rw [← C.token_kind ht, ← C.token_pos ht]
  split
  · exact C.pure rfl
  · exact C.pure rfl
  · exact C.expectName.then_ fun _ => C.expectSymbol _
  · exact C.expectName.then_ fun _ => C.pure rfl
  · exact hg.scopedBlock.then_ fun _ => hclose _ _
  · refine C.bind (hg.expression 0 false) fun _ _ _ =>
      (C.expectKeyword _).then_ fun _ => ?_
    exact hg.scopedBlock.then_ fun _ => hclose _ _
  · refine (C.within .scope ?_).then_ fun _ => C.emit .forget
    exact hg.block.then_ fun _ => (C.closeKeyword _ _ _).then_ fun _ =>
      C.bind (hg.expression 0 false) fun _ _ _ => C.pure rfl
  · exact hg.branch.then_ fun _ => hg.branches.then_ fun _ => hclose _ _
  · refine C.expectName.then_ fun _ => hg.forClause.then_ fun _ =>
      (C.expectKeyword _).then_ fun _ => ?_
    exact hg.scopedBlock.then_ fun _ => hclose _ _
  · exact hg.functionStatement _
  · exact hg.localStatement
  · exact hg.expressionStatement ht

/-! ## Blocks -/

theorem returnStatement : C.rel Eq g.returnStatement g'.returnStatement := by
  have hend :
      C.rel Eq
        (do unless ← Parser.atBlockEnd do
              Parser.fail (.expected .endOfInput) : Parser n Unit)
        (do unless ← Parser.atBlockEnd do
              Parser.fail (.expected .endOfInput) : Parser m Unit) := by
    refine C.atBlockEnd.then_ fun isEnd => ?_
    split
    · exact C.pure rfl
    · exact C.fail _
  have hrest := (C.accept (n := n) (m := m) (.symbol .semicolon)).then_ fun _ =>
    C.mark .comments ((C.emit .discard).then_ fun _ => hend)
  refine C.atBlockEnd.then_ fun isEnd => (C.nextIs _).then_ fun isEmpty => ?_
  dsimp only
  split
  · exact hrest
  · exact C.bind (hg.values false) fun _ _ _ => hrest

theorem blockRule : C.rel Eq g.blockRule g'.blockRule := by
  refine C.mark .comments (C.onToken (fun t t' ht => ?_) (C.pure rfl))
  rw [← C.token_kind ht]
  split
  · exact .none
  · split
    · exact .some hg.returnStatement
    · exact .some
        ((C.within .statement (hg.statementFrom ht)).then_ fun _ => hg.block)

/-! ## The grammar as a whole -/

theorem step : g.step.Related C g'.step where
  expression := hg.expressionRule
  operators := hg.operatorsRule
  suffixes := hg.suffixesRule
  values := hg.valuesRule
  entries := hg.entriesRule
  targets := hg.targetsRule
  branches := hg.branchesRule
  block := hg.blockRule

theorem chunk : C.rel Eq g.chunk g'.chunk := by
  refine hg.block.then_ fun _ => C.bind C.peek fun t t' ht => ?_
  cases ht with
  | none => exact C.pure rfl
  | some _ => exact C.fail _

end Related

/-- The bounds of the two grammars do not matter. -/
theorem related_upTo (C : Parser.Comparison) (n m : Nat) :
    (upTo n).Related C (upTo m) := by
  induction n generalizing m with
  | zero => exact .absurd _ _ (.inl rfl)
  | succ n ih =>
      cases m with
      | zero => exact .absurd _ _ (.inr rfl)
      | succ m => exact (ih m).step

end Grammar

end LuaGloss

import LuaGloss.Catalog.Source
import LuaGloss.Proofs.Syntax.Likeness
import LuaGloss.Proofs.Syntax.Trail

/-!
# The grammar comes to an end

The parsers call each other without a bound of their own; what bounds them is
the number of tokens that are left.  A grammar can be put on top of any other
one by so many applications of its rules.  Calls then go down at most as many
steps as there are tokens left, and one more: below that, other parsers make no
difference, whatever they do.  As every repetition of the grammar is a call of
this kind, none goes on for ever.

On the way the cursor only moves forward, and it stops at the end of the input.
A statement, an expression, a suffixed expression and an entry of a table
constructor take at least one token away.
-/

namespace LuaGloss

/-- An outcome without the bound on the number of tokens and without source
texts. -/
def Outcome.unbounded (o : Outcome n Unit) :
    List Node × Except SyntaxError (List Token × Pos) :=
  (Node.bareAll o.nodes, o.result.map fun (_, c) => (c.rest, c.last))

theorem Outcome.Alike.unbounded {o : Outcome n Unit} {o' : Outcome m Unit}
    (h : o.Alike (.bare True) Eq o') : o.unbounded = o'.unbounded := by
  cases h with
  | ok hnodes _ hc =>
      have hrest :=
        map_eq_of_forall₂ (f := id) (fun _ _ ht => ht.eq trivial) hc.rest
      rw [List.map_id, List.map_id] at hrest
      simp [Outcome.unbounded, Except.map, show Node.bareAll _ = _ from hnodes,
        hrest, hc.last]
  | error hnodes he =>
      simp [Outcome.unbounded, Except.map, show Node.bareAll _ = _ from hnodes,
        he.eq trivial]

/-- The same cursor under a larger bound. -/
def Cursor.lift (n : Nat) (c : Cursor (k + 1)) : Cursor (n + k + 1) :=
  ⟨c.rest, c.last, by have := c.bound; omega⟩

/-- The outcome leaves the end of the tokens `ts`, and not all of them if it is
one that `takes` some, or it is an error that blames one of them or the end of
the source. -/
def Outcome.Proceeds (chunk : Chunk) (ts : List Token) (takes : Bool)
    (o : Outcome n α) : Prop :=
  match o.result with
  | .ok (_, c) => c.rest <:+ ts ∧ (takes = true → c.rest.length < ts.length)
  | .error e => e.Blames chunk ts

/-- Something that is read from a place in the token stream. -/
inductive Call where
  | chunk
  | block
  | scopedBlock
  | statement
  | result
  | branch
  | branches
  | forClause
  | forRange
  | functionStatement (opening : Pos)
  | functionRest (isLocal : Bool) (opening : Pos) (ident : Ident)
      (name : FunctionName)
  | localStatement
  | expressionStatement
  | targets
  | values (owned : Bool)
  | expression (limit : Nat) (owned : Bool)
  | operators (limit : Nat) (start : Pos) (operand : Value)
  | simple (owned : Bool)
  | suffixed
  | suffixes (s : Suffixed)
  | arguments
  | table (owned : Bool) (opening : Pos)
  | entries
  | entry
  | parameters
  | moreNames
  | dottedNames
  | localNames

/-- Whether nothing can be read without taking a token away. -/
def Call.takes : Call → Bool
  | statement | expression _ _ | suffixed | entry => true
  | _ => false

namespace Parser

def first (f : Token → Parser n α) : Parser (n + 1) α :=
  onToken (fun t => some (f t)) (fail .unexpectedSymbol)

def void (p : Parser n α) : Parser n Unit := do let _ ← p

/-- Whatever is left when the parser succeeds, it is not as much as there can be
in the beginning. -/
def Lowers (p : Parser (n + 1) α) : Prop :=
  ∀ chunk c a c', (p chunk c).result = .ok (a, c') → c'.rest.length < n

namespace Lowers

theorem fail (fault : SyntaxFault) :
    Lowers (Parser.fail fault : Parser (n + 1) α) := nofun

theorem onToken {f : Token → Option (Parser n α)} {otherwise : Parser (n + 1) α}
    (h : Lowers otherwise) : Lowers (Parser.onToken f otherwise) := by
  intro chunk c a c' hresult
  cases hrest : c.rest with
  | nil =>
      rw [onToken_of_nil hrest] at hresult
      exact h chunk c a c' hresult
  | cons t rest =>
      cases hp : f t with
      | none =>
          rw [onToken_of_none hrest hp] at hresult
          exact h chunk c a c' hresult
      | some p =>
          obtain ⟨hbound, heq⟩ := onToken_of_some chunk hrest hp
          rw [heq] at hresult
          unfold Outcome.weaken at hresult
          cases hinner : (p chunk ⟨rest, t.pos, hbound⟩).result with
          | error e => simp [hinner, Except.map] at hresult
          | ok found =>
              simp only [hinner, Except.map, Except.ok.injEq,
                Prod.mk.injEq] at hresult
              obtain ⟨-, rfl⟩ := hresult
              exact found.2.bound

theorem void {p : Parser (n + 1) α} (h : Lowers p) : Lowers p.void := by
  intro chunk c a c' hresult
  change (Parser.bind p (fun _ => Parser.pure ()) chunk c).result = _ at hresult
  unfold Parser.bind at hresult
  cases hp : (p chunk c).result with
  | error e => simp [hp] at hresult
  | ok found =>
      simp only [hp, Parser.pure, Except.ok.injEq, Prod.mk.injEq] at hresult
      exact hresult.2 ▸ h chunk c found.1 found.2 hp

end Lowers

end Parser

namespace Grammar

/-- The rules applied `k` times on top of other parsers. -/
def descend (below : Grammar n) : (k : Nat) → Grammar (n + k)
  | 0 => below
  | k + 1 => (below.descend k).step

theorem related_descend (C : Parser.Comparison) (below : Grammar n) (k : Nat) :
    (below.descend k).Related C (upTo k) := by
  induction k with
  | zero => exact .absurd _ _ (.inr rfl)
  | succ k ih => exact ih.step

/-- The parser of a call, without its value. -/
def run (g : Grammar n) : Call → Parser (n + 1) Unit
  | .chunk => g.step.chunk
  | .block => g.step.block
  | .scopedBlock => g.step.scopedBlock
  | .statement => .first g.statementFrom
  | .result => g.step.returnStatement
  | .branch => g.step.branch
  | .branches => g.step.branches
  | .forClause => g.step.forClause
  | .forRange => g.step.forRange
  | .functionStatement opening => g.step.functionStatement opening
  | .functionRest isLocal opening ident name =>
    g.step.functionRest isLocal opening ident name
  | .localStatement => g.step.localStatement
  | .expressionStatement => .first g.expressionStatement
  | .targets => g.step.targets.void
  | .values owned => (g.step.values owned).void
  | .expression limit owned => (g.step.expression limit owned).void
  | .operators limit start operand => (g.step.operators limit start operand).void
  | .simple owned => (Parser.first (g.simpleFrom owned)).void
  | .suffixed => (Parser.first g.suffixedFrom).void
  | .suffixes s => (g.step.suffixes s).void
  | .arguments => g.step.arguments
  | .table owned opening => g.step.tableBody owned opening
  | .entries => g.step.entries
  | .entry => g.entry
  | .parameters => (Parser.parameters (n + 1)).void
  | .moreNames => Parser.moreNames (n + 1)
  | .dottedNames => (Parser.dottedNames (n + 1)).void
  | .localNames => (Parser.localNames (n + 1)).void

theorem Related.run {C : Parser.Comparison} (hrefl : ∀ v, C.value v v)
    {g : Grammar n} {g' : Grammar m} (hg : g.Related C g') (call : Call) :
    C.rel Eq (g.run call) (g'.run call) := by
  have hfirst {α : Type} {R : α → α → Prop} {f : Token → Parser n α}
      {f' : Token → Parser m α}
      (h : ∀ {t t'}, C.token t t' → C.rel R (f t) (f' t')) :
        C.rel R (Parser.first f) (Parser.first f') :=
    C.onToken (fun _ _ ht => .some (h ht)) (C.fail _)
  have hvoid {α : Type} {R : α → α → Prop} {p : Parser (n + 1) α}
      {p' : Parser (m + 1) α} (h : C.rel R p p') :
      C.rel Eq p.void p'.void := C.bind h fun _ _ _ => C.pure rfl
  cases call with
  | chunk => exact hg.step.chunk
  | block => exact hg.blockRule
  | scopedBlock => exact hg.step.scopedBlock
  | statement => exact hfirst hg.statementFrom
  | result => exact hg.step.returnStatement
  | branch => exact hg.step.branch
  | branches => exact hg.branchesRule
  | forClause => exact hg.step.forClause
  | forRange => exact hg.step.forRange
  | functionStatement opening => exact hg.step.functionStatement opening
  | functionRest isLocal opening ident name =>
      exact hg.step.functionRest isLocal opening ident name
  | localStatement => exact hg.step.localStatement
  | expressionStatement => exact hfirst hg.expressionStatement
  | targets => exact hvoid hg.targetsRule
  | values owned => exact hvoid (hg.valuesRule owned)
  | expression limit owned => exact hvoid (hg.expressionRule limit owned)
  | operators limit start operand =>
      exact hvoid (hg.operatorsRule limit start (hrefl operand))
  | simple owned => exact hvoid (hfirst fun ht => hg.simpleFrom ht owned)
  | suffixed => exact hvoid (hfirst hg.suffixedFrom)
  | suffixes s =>
      exact hvoid
        (hg.suffixesRule ⟨rfl, rfl, rfl, hrefl _, rfl, rfl, rfl, hrefl _⟩)
  | arguments => exact hg.step.arguments
  | table owned opening => exact hg.step.tableBody owned opening
  | entries => exact hg.entriesRule
  | entry => exact hg.entry
  | parameters => exact hvoid (C.parameters _ _)
  | moreNames => exact C.moreNames _ _
  | dottedNames => exact hvoid (C.dottedNames _ _)
  | localNames => exact hvoid (C.localNames _ _)

/-- The bound on the number of tokens does not matter. -/
theorem unbounded_run {g : Grammar n} {g' : Grammar m}
    (hg : g.Related (Parser.View.bare True).comparison g') (call : Call)
    (chunk : Chunk) (c : Cursor (n + 1)) (c' : Cursor (m + 1))
    (hrest : c.rest = c'.rest) (hlast : c.last = c'.last) :
    (g.run call chunk c).unbounded = (g'.run call chunk c').unbounded := by
  have hc : c.Alike (.bare True) c' :=
    ⟨hrest ▸ List.forall₂_same.2 fun _ _ => ⟨rfl, rfl, rfl, fun _ => rfl⟩, hlast⟩
  exact (hg.run (fun _ => rfl) call chunk chunk rfl c c' hc).unbounded

theorem lowers_run {call : Call} (h : call.takes = true) (k : Nat) :
    ((upTo k).run call).Lowers := by
  cases call with
  | statement => exact .onToken (.fail _)
  | expression limit owned => exact .void (.onToken (.fail _))
  | suffixed => exact .void (.onToken (.fail _))
  | entry =>
      intro chunk c u c' hresult
      have hvalue (head : FieldHead) :
          (entryValue head ((upTo k).expressionRule 0 true)).Lowers :=
        Parser.Lowers.onToken (.fail _)
      exact Parser.Lowers.onToken (hvalue _).void chunk c u c' hresult
  | _ => cases h

theorem proceeds_run (call : Call) (chunk : Chunk) (c : Cursor (k + 1)) :
    ((upTo k).run call chunk c).Proceeds chunk c.rest call.takes := by
  obtain ⟨rest, htrail, hends⟩ :=
    (related_upTo (Parser.Travels.comparison chunk c.rest) k k).run (fun _ =>
      rfl) call rfl
      c (List.Subset.refl _)
  unfold Outcome.Proceeds
  cases hends with
  | error hresult he =>
      rw [hresult]
      exact he
  | @ok a c' hresult _ hrest =>
      rw [hresult]
      refine ⟨hrest ▸ htrail.suffix, fun htakes => ?_⟩
      -- Under the lowest bound there is for these tokens, to go below the bound
      -- is to take one away.
      have hsame := unbounded_run (related_upTo _ k c.rest.length) call chunk c
        ⟨c.rest, c.last, Nat.lt_succ_self _⟩ rfl rfl
      have hlower :=
        lowers_run htakes c.rest.length chunk ⟨c.rest, c.last, Nat.lt_succ_self _⟩
      generalize (upTo c.rest.length).run call chunk _ = o at hsame hlower
      unfold Outcome.unbounded at hsame
      cases ho : o.result with
      | error e => simp [hresult, ho, Except.map] at hsame
      | ok found =>
          simp only [hresult, ho, Except.map, Prod.mk.injEq,
            Except.ok.injEq] at hsame
          rw [hsame.2.1]
          exact hlower found.1 found.2 ho

end Grammar

/-- The outline that is found if the rules are applied once for each token, and
once more, on top of other parsers. -/
def Outline.descending (below : Grammar n) (source : Bytes) (finish : Pos)
    (tokens : List Token) : Outline :=
  ((below.descend (tokens.length + 1)).chunk ⟨source, finish⟩ ⟨tokens,
    .none, by omega⟩).outline

theorem Outline.error_descending (below : Grammar n) (source : Bytes)
    (finish : Pos) (tokens : List Token) :
    (Outline.descending below source finish tokens).error =
      (Outline.ofTokens source finish tokens).error := by
  have h :=
    (Grammar.related_descend (Parser.View.bare True).comparison below
      (tokens.length + 1)).chunk ⟨source, finish⟩
      ⟨source, finish⟩ rfl ⟨tokens, .none, by omega⟩ ⟨tokens, .none,
        Nat.lt_succ_self _⟩
      ⟨List.forall₂_same.2 fun _ _ => ⟨rfl, rfl, rfl, fun _ => rfl⟩, rfl⟩
  rw [Outline.ofTokens_eq, Outline.descending]
  simpa using map_eq_of_rel (f := id) (fun _ _ he => he.eq trivial) h.outline.error

/-- Calls end: with `k` tokens left at most, nothing depends on what there is
`k` steps below a call.  The cursor goes forward on the way and does not leave
the input.  So every source is read, with the error that is found in the first
steps. -/
theorem Grammar.run_descend_ends :
    (∀ (call : Call) {n k : Nat} (below : Grammar n) (chunk : Chunk)
      (c : Cursor (k + 1)),
      ((below.descend k).run call chunk (c.lift n)).unbounded =
        ((upTo k).run call chunk c).unbounded ∧
        ((upTo k).run call chunk c).Proceeds chunk c.rest call.takes) ∧
      ∀ (r : Recorder) (file source : Bytes) {n : Nat} (below : Grammar n),
        let main := (tokenize source).filter (!·.kind.isComment)
        let outline := Outline.descending below source
          ((main.getLast?.map (·.pos)).getD .none) main.dropLast
        (r.readNext file source).1 =
          ((tokenize source).findSome? (SourceError.ofToken? file)).or
            (outline.error.map (.syntactic file)) := by
  refine ⟨fun call n k below chunk c => ⟨?_, proceeds_run call chunk c⟩,
    fun r file source n below => ?_⟩
  · exact unbounded_run (related_descend _ below k) call chunk _ c rfl rfl
  · dsimp only
    rw [Outline.error_descending]
    change _ =
      Option.or _ ((Outline.ofSource source (tokenize source)).error.map _)
    unfold Recorder.readNext
    dsimp only
    cases (tokenize source).findSome? (SourceError.ofToken? file) with
    | some error => rfl
    | none => cases (Outline.ofSource source (tokenize source)).error <;> rfl

end LuaGloss

import LuaGloss.Catalog.Source
import LuaGloss.Proofs.Comment.Effects

/-!
# Function bodies are isolated

Nothing inside a function body is declared, whatever stands there: statements,
tables, other functions.  Comments in it are dropped, except for remarks on the
line where the parameter list of the outermost function ends, which go to the
function.  After the body everything that the recorder goes by is as it was
before.
-/

namespace LuaGloss

mutual

/-- The offsets at which comments are read in a node, the entries of table
constructors aside. -/
def Node.offsets : Node → List Nat
  | .comments offset => [offset]
  | .tableComments _ | .tableEnd | .discard | .forget => []
  | .statement inner | .scope inner | .body _ _ inner | .table _ inner
  | .value inner | .entry _ inner _
  | .locals _ inner _ | .assign _ inner _
  | .function _ inner _ => Node.offsetsIn inner

def Node.offsetsIn : List Node → List Nat
  | [] => []
  | node :: nodes => node.offsets ++ Node.offsetsIn nodes

end

namespace Recorder

def Ignores (r : Recorder) (t : Token) : Prop :=
  r.header = none ∨ (t.isRetroactive = true → t.pos.line ≠ r.headerLine)

/-- Whether all comments that are read at the given offsets in a function body
are dropped. -/
def IgnoresAt (r : Recorder) (offsets : List Nat) : Prop :=
  ∀ offset ∈ offsets, ∀ run, r.comments.lookup offset = some run →
  ∀ t ∈ run, r.Ignores t

/-- What happens inside a function body.  The documentation stays as it is if
comments are dropped. -/
structure Passes (r : Recorder) (dropped : Prop) (r' : Recorder) : Prop where
  declarations : r'.catalog.declarations = r.catalog.declarations
  locals : r'.locals = r.locals
  scopes : r'.reader.scopes = r.reader.scopes
  depth : r'.depth = r.depth
  header : r'.header = r.header
  headerLine : r'.headerLine = r.headerLine
  /-- Comments are only taken away. -/
  comments : ∀ offset run, r'.comments.lookup offset = some run →
    r.comments.lookup offset = some run
  docs : dropped → r'.catalog.docs = r.catalog.docs

namespace Passes

variable {r r' r'' : Recorder} {dropped dropped' : Prop}

theorem refl (r : Recorder) (dropped : Prop) : r.Passes dropped r :=
  ⟨rfl, rfl, rfl, rfl, rfl, rfl, fun _ _ h => h, fun _ => rfl⟩

theorem trans (h : r.Passes dropped r') (h' : r'.Passes dropped' r'')
    (hdropped : dropped → dropped') : r.Passes dropped r'' where
  declarations := h'.declarations.trans h.declarations
  locals := h'.locals.trans h.locals
  scopes := h'.scopes.trans h.scopes
  depth := h'.depth.trans h.depth
  header := h'.header.trans h.header
  headerLine := h'.headerLine.trans h.headerLine
  comments offset run hrun := h.comments offset run (h'.comments offset run hrun)
  docs hall := (h'.docs (hdropped hall)).trans (h.docs hall)

theorem weaken (h : r.Passes dropped r') (hdropped : dropped' → dropped) :
    r.Passes dropped' r' :=
  { h with docs := fun hall => h.docs (hdropped hall) }

theorem ignores (h : r.Passes dropped r') {t : Token} (ht : r.Ignores t) :
    r'.Ignores t := by
  unfold Ignores
  rw [h.header, h.headerLine]
  exact ht

theorem ignoresAt (h : r.Passes dropped r') {offsets : List Nat}
    (hall : r.IgnoresAt offsets) : r'.IgnoresAt offsets := by
  intro offset hoffset run hrun t ht
  exact h.ignores (hall offset hoffset run (h.comments offset run hrun) t ht)

theorem discard (r : Recorder) (dropped : Prop) : r.Passes dropped r.discard :=
  ⟨rfl, rfl, rfl, rfl, rfl, rfl, fun _ _ h => h, fun _ => rfl⟩

theorem withLast (r : Recorder) (last : Option ItemId) (dropped : Prop) :
    r.Passes dropped { r with last } :=
  ⟨rfl, rfl, rfl, rfl, rfl, rfl, fun _ _ h => h, fun _ => rfl⟩

/-! ## Comments -/

theorem readInBody (r : Recorder) (t : Token) :
    r.Passes (r.Ignores t) (r.readInBody t) := by
  unfold Recorder.readInBody
  split
  next item hitem =>
    split
    next hremark =>
      have hread :=
        CommentReader.Affects.readBack r.reader t.value r.file t.pos item
      refine ⟨hread.declarations, rfl, hread.scopes, rfl, rfl, rfl,
        fun _ _ h => h, ?_⟩
      rintro (hnone | hother)
      · simp [hitem] at hnone
      · simp only [Bool.and_eq_true, beq_iff_eq] at hremark
        exact absurd hremark.2 (hother hremark.1)
    next => exact .refl r _
  next => exact .refl r _

theorem foldl_readInBody (run : List Token) (r : Recorder) :
    r.Passes (∀ t ∈ run, r.Ignores t) (run.foldl Recorder.readInBody r) := by
  induction run generalizing r with
  | nil => exact .refl r _
  | cons t ts ih =>
      have hfirst := (readInBody r t).weaken
        fun (hall : ∀ t' ∈ t :: ts, r.Ignores t') => hall t List.mem_cons_self
      apply hfirst.trans (ih _)
      intro hall t' ht'
      exact hfirst.ignores (hall t' (List.mem_cons_of_mem _ ht'))

theorem lookup_of_filter {comments : CommentRuns} {offset other : Nat}
    {run : List Token}
    (h : (comments.filter (·.1 != offset)).lookup other = some run) :
    comments.lookup other = some run := by
  by_cases hother : other = offset
  · obtain ⟨before, after, hsplit, -⟩ := List.lookup_eq_some_iff.1 h
    have hmem : (other, run) ∈ comments.filter (·.1 != offset) := by simp [hsplit]
    simp [hother] at hmem
  · rwa [Docs.lookup_filter_ne comments hother] at h

theorem flush (hr : 0 < r.depth) (offset : Nat) :
    r.Passes (r.IgnoresAt [offset]) (r.flush offset) := by
  unfold Recorder.flush
  split
  · exact .refl r _
  next run hrun =>
    have htaken :
        r.Passes (r.IgnoresAt [offset])
          { r with comments := r.comments.filter (·.1 != offset) } :=
      ⟨rfl, rfl, rfl, rfl, rfl, rfl, fun _ _ => lookup_of_filter, fun _ => rfl⟩
    have hinside :
        ({ r with comments := r.comments.filter (·.1 != offset) } :
          Recorder).isDeclaring = false := by
      simp only [isDeclaring, beq_eq_false_iff_ne]
      omega
    dsimp only
    rw [hinside]
    apply htaken.trans (foldl_readInBody run _)
    intro hall
    exact hall offset List.mem_cons_self run hrun

/-! ## Scopes -/

theorem scope (h : r.enterScope.Passes dropped r') :
    r.Passes dropped r'.leaveScope where
  declarations := h.declarations
  locals := h.locals
  scopes := congrArg List.tail h.scopes
  depth := h.depth
  header := h.header
  headerLine := h.headerLine
  comments := h.comments
  docs := h.docs

theorem enterBody_eq (r : Recorder) (item : Option ItemId) (line : Nat) :
    r.enterBody item line =
      { r with
        header := if r.depth = 0 then item else r.header
        headerLine := if r.depth = 0 then line else r.headerLine
        depth := r.depth + 1
        last := none : Recorder }.enterScope := by
  unfold enterBody
  by_cases hdepth : r.depth = 0 <;> simp [isDeclaring, hdepth]

theorem body {item : Option ItemId} {line : Nat}
    (h : (r.enterBody item line).Passes dropped r') :
    r.Passes dropped (r'.leaveBody r) := by
  rw [enterBody_eq] at h
  have hleft := h.scope
  have hdepth : r'.depth - 1 = r.depth := congrArg Nat.pred h.depth
  exact ⟨hleft.declarations, hleft.locals, hleft.scopes, hdepth, rfl, rfl,
    hleft.comments, hleft.docs⟩

end Passes

/-! ## Nothing is declared -/

section

variable {r : Recorder} (hr : 0 < r.depth)

include hr

theorem isDeclaring_inBody : r.isDeclaring = false := by
  simp only [isDeclaring, beq_eq_false_iff_ne]
  omega

theorem declareLocals_inBody (names : List Ident) :
    (r.declareLocals names).2 = r ∧
    ∀ id ∈ (r.declareLocals names).1, id = none := by
  have hscope : r.atFileScope = false := by
    simp [atFileScope, isDeclaring_inBody hr]
  induction names with
  | nil => simp [declareLocals]
  | cons ident idents ih => simpa [declareLocals, hscope] using ih

theorem declareTargets_inBody (targets : List Target) :
    (r.declareTargets targets).2 = r ∧
    ∀ id ∈ (r.declareTargets targets).1, id = none := by
  induction targets with
  | nil => simp [declareTargets]
  | cons target targets ih =>
      simpa [declareTargets, declareTarget, isDeclaring_inBody hr] using ih

theorem declareStatement_inBody (head : FunctionHead) :
    r.declareStatement head = (none, r) := by
  simp [declareStatement, atFileScope, isDeclaring_inBody hr]

theorem newTable_inBody (owner : Option ItemId) :
    r.newTable owner = (none, r) := by
  cases owner <;> simp [newTable, isDeclaring_inBody hr]

end

theorem setInits_none {ids : List (Option ItemId)}
    (hids : ∀ id ∈ ids, id = none) (r : Recorder) (inits : List Value)
    (tables : List (Option TableId)) : r.setInits ids inits tables = r := by
  induction ids generalizing inits tables with
  | nil => simp [setInits]
  | cons id ids ih =>
      obtain ⟨rfl, hrest⟩ := List.forall_mem_cons.1 hids
      cases inits with
      | nil => rfl
      | cons init inits => exact ih hrest inits tables.tail

theorem Passes.finish {r r' : Recorder} {dropped : Prop}
    {ids : List (Option ItemId)} (h : r.Passes dropped r')
    (hids : ∀ id ∈ ids, id = none) (inits : Option (List Value))
    (tables : List (Option TableId)) :
    r.Passes dropped
      ((inits.map fun inits =>
        { r'.setInits ids inits tables with last := ids.getLast?.join }).getD
          r') := by
  cases inits with
  | none => exact h
  | some inits =>
      change r.Passes dropped
        { r'.setInits ids inits tables with last := ids.getLast?.join }
      rw [setInits_none hids]
      exact h.trans (.withLast r' _ dropped) id

namespace Passes

theorem append {r r' r'' : Recorder} {first later : List Nat}
    (h : r.Passes (r.IgnoresAt first) r')
    (h' : r'.Passes (r'.IgnoresAt later) r'') :
    r.Passes (r.IgnoresAt (first ++ later)) r'' := by
  have hleft : r.Passes (r.IgnoresAt (first ++ later)) r' :=
    h.weaken fun hall offset hoffset =>
      hall offset (List.mem_append_left _ hoffset)
  exact hleft.trans h' fun hall => hleft.ignoresAt fun offset hoffset =>
    hall offset (List.mem_append_right _ hoffset)

mutual

theorem walk (node : Node) {r : Recorder} (hr : 0 < r.depth)
    (owner : Option ItemId) :
    (Recorder.walk owner none r node).1 = none ∧
      r.Passes (r.IgnoresAt node.offsets) (Recorder.walk owner none r node).2 := by
  cases node with
  | comments offset =>
      rw [Recorder.walk, Node.offsets]
      exact ⟨rfl, flush hr offset⟩
  | tableComments offset =>
      rw [Recorder.walk]
      exact ⟨rfl, .refl r _⟩
  | tableEnd =>
      rw [Recorder.walk]
      exact ⟨rfl, .refl r _⟩
  | discard =>
      rw [Recorder.walk]
      exact ⟨rfl, .discard r _⟩
  | forget =>
      rw [Recorder.walk]
      exact ⟨rfl, .withLast r none _⟩
  | statement inner =>
      rw [Recorder.walk, Node.offsets]
      have hforget := Passes.withLast r none (r.IgnoresAt (Node.offsetsIn inner))
      have hinner := walkAll inner (r := { r with last := none }) hr none
      exact ⟨rfl,
        (hforget.trans hinner.2 hforget.ignoresAt).trans (.discard _ _) id⟩
  | scope inner =>
      rw [Recorder.walk, Node.offsets]
      exact ⟨rfl, (walkAll inner (r := r.enterScope) hr none).2.scope⟩
  | body owned line inner =>
      rw [Recorder.walk, Node.offsets]
      have hdepth :
          0 < (r.enterBody (if owned then owner else none) line).depth := by
        rw [enterBody_eq]
        exact Nat.succ_pos _
      have hsame : r.IgnoresAt (Node.offsetsIn inner) →
          (r.enterBody (if owned then owner else none) line).IgnoresAt
            (Node.offsetsIn inner) := by
        rw [enterBody_eq, if_neg (Nat.ne_of_gt hr), if_neg (Nat.ne_of_gt hr)]
        exact id
      exact ⟨rfl, Passes.body ((walkAll inner hdepth none).2.weaken hsame)⟩
  | table owned inner =>
      rw [Recorder.walk, Node.offsets, newTable_inBody hr]
      exact ⟨rfl, (walkAll inner hr none).2⟩
  | value inner =>
      rw [Recorder.walk, Node.offsets]
      exact walkAll inner hr owner
  | entry head inner init =>
      rw [Recorder.walk, Node.offsets]
      have hinner := (walkAll inner hr none).2
      cases init with
      | none => exact ⟨rfl, hinner⟩
      | some init => exact ⟨rfl, hinner⟩
  | locals names inner inits =>
      rw [Recorder.walk, Node.offsets]
      obtain ⟨hsame, hids⟩ := declareLocals_inBody hr names
      dsimp only
      rw [hsame]
      exact ⟨rfl, (walkValues inner hr _).finish hids inits _⟩
  | assign targets inner inits =>
      rw [Recorder.walk, Node.offsets]
      obtain ⟨hsame, hids⟩ := declareTargets_inBody hr targets
      dsimp only
      rw [hsame]
      exact ⟨rfl, (walkValues inner hr _).finish hids inits _⟩
  | function head inner stop =>
      rw [Recorder.walk, Node.offsets, declareStatement_inBody hr]
      have hinner := (walkAll inner hr none).2
      cases stop with
      | none => exact ⟨rfl, hinner⟩
      | some stop => exact ⟨rfl, hinner.trans (.withLast _ none _) id⟩

theorem walkAll (nodes : List Node) {r : Recorder} (hr : 0 < r.depth)
    (owner : Option ItemId) :
    (Recorder.walkAll owner none r nodes).1 = none ∧
      r.Passes (r.IgnoresAt (Node.offsetsIn nodes))
        (Recorder.walkAll owner none r nodes).2 := by
  cases nodes with
  | nil =>
      rw [Recorder.walkAll]
      exact ⟨rfl, .refl r _⟩
  | cons node nodes =>
      rw [Recorder.walkAll, Node.offsetsIn]
      obtain ⟨hbuilt, hfirst⟩ := walk node hr owner
      obtain ⟨hmore, hrest⟩ :=
        walkAll nodes (r := (Recorder.walk owner none r node).2)
          (hfirst.depth ▸ hr) owner
      exact ⟨by simp [hbuilt, hmore], hfirst.append hrest⟩

theorem walkValues (nodes : List Node) {r : Recorder} (hr : 0 < r.depth)
    (ids : List (Option ItemId)) :
    r.Passes (r.IgnoresAt (Node.offsetsIn nodes))
      (Recorder.walkValues ids r nodes).2 := by
  cases nodes with
  | nil =>
      rw [Recorder.walkValues]
      exact .refl r _
  | cons node nodes =>
      rw [Recorder.walkValues, Node.offsetsIn]
      obtain ⟨-, hfirst⟩ := walk node hr ids.head?.join
      have hrest :=
        walkValues nodes (r := (Recorder.walk ids.head?.join none r node).2)
          (hfirst.depth ▸ hr) ids.tail
      exact hfirst.append hrest

end

end Passes

end Recorder

/-! ## Parsing a function body -/

namespace Parser

def IsSilent (p : Parser n α) : Prop := ∀ chunk c, (p chunk c).nodes = []

namespace IsSilent

theorem pure (a : α) : IsSilent (Pure.pure a : Parser n α) := fun _ _ => rfl

theorem bind {p : Parser n α} {f : α → Parser n β} (hp : p.IsSilent)
    (hf : ∀ a, (f a).IsSilent) : (p >>= f).IsSilent := by
  intro chunk c
  change (Parser.bind p f chunk c).nodes = []
  unfold Parser.bind
  dsimp only
  split
  · exact hp chunk c
  next a c' _ => simp [hp chunk c, hf a chunk c']

theorem errorHere (fault : SyntaxFault) :
    (Parser.errorHere fault : Parser n SyntaxError).IsSilent := fun _ _ => rfl

theorem fail (fault : SyntaxFault) : (Parser.fail fault : Parser n α).IsSilent :=
  bind (errorHere fault) fun _ _ _ => rfl

theorem nextIs (kind : TokenKind) :
    (Parser.nextIs kind : Parser n Bool).IsSilent :=
  bind (fun _ _ => rfl) fun _ => pure _

theorem accept (kind : TokenKind) :
    (Parser.accept kind : Parser n Bool).IsSilent := by
  apply bind (nextIs kind)
  intro isNext
  split
  · exact bind (fun _ _ => rfl) fun _ => pure _
  · exact pure _

theorem onToken {f : Token → Option (Parser n α)} {otherwise : Parser (n + 1) α}
    (hf : ∀ t p, f t = some p → p.IsSilent) (hotherwise : otherwise.IsSilent) :
    (Parser.onToken f otherwise).IsSilent := by
  intro chunk c
  unfold Parser.onToken
  split
  · exact hotherwise chunk c
  · split
    · exact hotherwise chunk c
    next p hp => exact hf _ p hp chunk _

theorem closeKeyword (word opener : Keyword) (line : Nat) :
    (Parser.closeKeyword word opener line : Parser n Unit).IsSilent := by
  apply bind (accept _)
  intro isClosed
  split
  · exact pure _
  · apply bind fun _ _ => rfl
    intro pos
    split <;> exact fail _

theorem parameters (n : Nat) : (Parser.parameters n).IsSilent := by
  induction n with
  | zero => exact fun _ c => (Nat.not_lt_zero _ c.bound).elim
  | succ n ih =>
      apply onToken
      · intro t p hp
        split at hp
        · obtain rfl := Option.some.inj hp
          exact pure _
        · split at hp
          · obtain rfl := Option.some.inj hp
            apply bind (accept _)
            intro hasMore
            split
            · exact bind ih fun _ => pure _
            · exact pure _
          · simp at hp
      · exact bind (errorHere _) fun _ => pure _

theorem header : (Parser.header : Parser n Header).IsSilent := by
  apply bind (accept _)
  intro isOpen
  split
  · apply bind (nextIs _)
    intro isEmpty
    split
    on_goal 1 => refine bind (pure _) fun read => ?_
    on_goal 2 => refine bind (parameters n) fun read => ?_
    all_goals
      dsimp only
      split
      · exact pure _
      · apply bind (accept _)
        intro isClosed
        split
        · exact bind (fun _ _ => rfl) fun _ => pure _
        · exact bind (errorHere _) fun _ => pure _
  · exact bind (errorHere _) fun _ => pure _

end IsSilent

end Parser

/-- The nodes of a function body, whether it is complete or not. -/
theorem Grammar.nodes_functionBody (g : Grammar n) (owned : Bool) (line : Nat)
    (opening : Pos) (chunk : Chunk) (c : Cursor n) :
    (g.functionBody owned line opening chunk c).nodes =
      [.body owned line (g.block chunk c).nodes] := by
  change (Parser.bind _ _ chunk c).nodes = _
  unfold Parser.bind
  dsimp only
  split
  · rfl
  next u c' _ =>
    rw [Parser.IsSilent.closeKeyword .end_ .function_ opening.line chunk c',
      List.append_nil]
    rfl

namespace Recorder

/-- A function body leaves all declarations, the local variables of the file and
the scopes alone, and what comments refer to is as it was before, whether the
body is complete or not; a parameter list does nothing at all.  The
documentation stays as it is too, unless a comment in the body points back to
the outermost function from the line on which its parameter list ends. -/
theorem functionBody_isolated (r : Recorder) (owner : Option ItemId)
    (table : Option TableId) (g : Grammar n) (owned : Bool) (line : Nat)
    (opening : Pos) (chunk : Chunk) (c : Cursor n) :
    let nodes := (g.functionBody owned line opening chunk c).nodes
    let after := (walkAll owner table r nodes).2
    let header := if r.depth = 0 then (if owned then owner else none) else r.header
    let headerLine := if r.depth = 0 then line else r.headerLine
    (Parser.header chunk c).nodes = [] ∧
      after.catalog.declarations = r.catalog.declarations ∧
      after.locals = r.locals ∧
      after.reader.scopes = r.reader.scopes ∧ after.depth = r.depth ∧
      after.last = r.last ∧
      after.header = r.header ∧ after.headerLine = r.headerLine ∧
      ((header = none ∨ ∀ offset ∈ Node.offsetsIn nodes, ∀ run,
        r.comments.lookup offset = some run →
          ∀ t ∈ run, t.isRetroactive = true → t.pos.line ≠ headerLine) →
        after.catalog.docs = r.catalog.docs) := by
  intro nodes after header headerLine
  have hnodes : nodes = [.body owned line (g.block chunk c).nodes] :=
    g.nodes_functionBody owned line opening chunk c
  have hafter :
      after = (walkAll none none (r.enterBody (if owned then owner else none) line)
      (g.block chunk c).nodes).2.leaveBody r := by
    simp only [after, hnodes, walkAll, walk]
  have hdepth : 0 < (r.enterBody (if owned then owner else none) line).depth := by
    rw [Passes.enterBody_eq]
    exact Nat.succ_pos _
  have hbody := Passes.body (Passes.walkAll (g.block chunk c).nodes hdepth none).2
  rw [← hafter] at hbody
  refine ⟨Parser.IsSilent.header chunk c, hbody.declarations, hbody.locals,
    hbody.scopes, hbody.depth, ?_,
    hbody.header, hbody.headerLine, ?_⟩
  · rw [hafter]
    rfl
  · intro hdropped
    apply hbody.docs
    intro offset hoffset run hrun t ht
    rw [Passes.enterBody_eq] at hrun
    have hoffset' : offset ∈ Node.offsetsIn nodes := by
      simpa [hnodes, Node.offsetsIn, Node.offsets] using hoffset
    rw [Passes.enterBody_eq]
    exact hdropped.imp_right fun hall => hall offset hoffset' run hrun t ht

/-- A function with an assignment, a table, a function and two comments in its
body. -/
private def bodySource : Bytes :=
  utf8 "function f()\n--! a\nx = \x7by = 1\x7d --!< b\nlocal function g() end\nend"

private def bodyRecorder : Recorder :=
  start (.empty .default) (utf8 "a.lua") bodySource (tokenize bodySource)

private def bodyTokens : List Token :=
  (((tokenize bodySource).filter (!·.kind.isComment)).dropLast).drop 4

private def bodyOutcome : Outcome (bodyTokens.length + 1) Unit :=
  (Grammar.upTo _).functionBody true 1 .none ⟨bodySource, .none⟩ ⟨bodyTokens,
    .none, Nat.lt_succ_self _⟩

/-- Nothing comes of the body, although it is complete and its comments are
read. -/
theorem functionBody_isolated_sample :
    bodyOutcome.result.isOk = true ∧
      (Node.offsetsIn bodyOutcome.nodes).countP
        (bodyRecorder.comments.lookup · |>.isSome) = 2 ∧
      (walkAll (some 0) none bodyRecorder
        bodyOutcome.nodes).2.catalog.declarations =
        bodyRecorder.catalog.declarations ∧
      (walkAll (some 0) none bodyRecorder bodyOutcome.nodes).2.catalog.docs =
        bodyRecorder.catalog.docs := by
  obtain ⟨-, hdeclarations, -, -, -, -, -, -, hdocs⟩ :=
    functionBody_isolated bodyRecorder (some 0) none
      (Grammar.upTo (bodyTokens.length + 1)) true 1 .none
      ⟨bodySource, .none⟩ ⟨bodyTokens, .none, Nat.lt_succ_self _⟩
  have hdropped : ((Node.offsetsIn bodyOutcome.nodes).all fun offset =>
      ((bodyRecorder.comments.lookup offset).getD []).all fun t =>
        !t.isRetroactive || t.pos.line != 1) = true := by
    decide +kernel
  refine ⟨by decide +kernel, by decide +kernel, hdeclarations, hdocs (.inr ?_)⟩
  intro offset hoffset run hrun t ht hback
  have hdepth : bodyRecorder.depth = 0 := rfl
  have hrun' := List.all_eq_true.1 hdropped offset hoffset
  rw [hrun] at hrun'
  simpa [hback, hdepth] using List.all_eq_true.1 hrun' t ht

end Recorder

end LuaGloss

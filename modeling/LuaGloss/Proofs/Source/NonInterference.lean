import LuaGloss.Proofs.Source.Events
import LuaGloss.Proofs.Syntax.Acceptance
import LuaGloss.Proofs.Syntax.Likeness

/-!
# Comments do not influence declarations

Two sources are read whose tokens agree once the structured comments are left
out, into catalogs with equal item graphs; the documentation in the two catalogs
may be anything.  Then both sources are accepted or both are not, and the item
graphs are equal again.

The two runs are related step by step.  What declarations depend on is the item
graph, the file, its local variables and the nesting of bodies and scopes;
reading comments changes none of these, and every other step changes them alike.
The walk over an outline is compared with the walk over the outline without its
source texts, so that the induction is on one outline only.

Errors are the same up to what they quote.  The message of an error shows a
token as it is written, and two strings of one value can be written differently.
-/

namespace LuaGloss

namespace Recorder

/-- Recorders that agree on all that declarations depend on. -/
structure Matches (r r' : Recorder) : Prop where
  file : r.file = r'.file
  locals : r.locals = r'.locals
  depth : r.depth = r'.depth
  scopes : r.reader.scopes.length = r'.reader.scopes.length
  graph : r.catalog.declarations.graph = r'.catalog.declarations.graph

/-- Steps with the same result that leave matching recorders behind. -/
structure Agree (x x' : α × Recorder) : Prop where
  result : x.1 = x'.1
  recorder : x.2.Matches x'.2

@[elab_as_elim] theorem Agree.elim {motive : α × Recorder → α × Recorder → Prop}
    {x x' : α × Recorder} (h : Agree x x')
    (mk : ∀ a s s', s.Matches s' → motive (a, s) (a, s')) : motive x x' := by
  obtain ⟨a, s⟩ := x
  obtain ⟨a', s'⟩ := x'
  obtain ⟨rfl, hs⟩ := h
  exact mk a s s' hs

theorem Agree.some {x x' : α × Recorder} (h : Agree x x') :
    Agree (Option.some x.1, x.2) (Option.some x'.1, x'.2) :=
  ⟨congrArg Option.some h.result, h.recorder⟩

theorem bare_extendInit (item : Item) (pos : Pos) :
    (extendInit item pos).bare = extendInit item.bare pos := by
  obtain ⟨name, file, pos', isLocal, isPrimary, shape⟩ := item
  cases shape with
  | function signature => rfl
  | variable_ init => rfl
  | field table init index =>
      simp only [extendInit, Item.bare, ItemShape.bare, Value.bare_extend]

namespace Matches

variable {r r' r'' : Recorder}

theorem refl (r : Recorder) : r.Matches r := ⟨rfl, rfl, rfl, rfl, rfl⟩

theorem symm (h : r.Matches r') : r'.Matches r :=
  ⟨h.file.symm, h.locals.symm, h.depth.symm, h.scopes.symm, h.graph.symm⟩

theorem trans (h : r.Matches r') (h' : r'.Matches r'') : r.Matches r'' :=
  ⟨h.file.trans h'.file, h.locals.trans h'.locals, h.depth.trans h'.depth,
    h.scopes.trans h'.scopes,
    h.graph.trans h'.graph⟩

/-! ## Comments and scopes -/

theorem of_affects (h : r.Affects r') : r.Matches r' where
  file := h.file.symm
  locals := h.locals.symm
  depth := h.depth.symm
  scopes := by rw [h.reader.scopes]
  graph := congrArg Declarations.graph h.reader.declarations.symm

theorem affects (h : r.Matches r') {s s' : Recorder} (hs : r.Affects s)
    (hs' : r'.Affects s') : s.Matches s' :=
  (of_affects hs).symm.trans (h.trans (of_affects hs'))

theorem flush (h : r.Matches r') (offset : Nat) :
    (r.flush offset).Matches (r'.flush offset) :=
  h.affects (.flush r offset) (.flush r' offset)

theorem discard (h : r.Matches r') : r.discard.Matches r'.discard :=
  h.affects (.discard r) (.discard r')

theorem withLast (h : r.Matches r') (last last' : Option ItemId) :
    ({ r with last } : Recorder).Matches { r' with last := last' } :=
  h.affects (.forget r last) (.forget r' last')

theorem enterScope (h : r.Matches r') : r.enterScope.Matches r'.enterScope :=
  ⟨h.file, h.locals, h.depth, congrArg Nat.succ h.scopes, h.graph⟩

theorem leaveScope (h : r.Matches r') : r.leaveScope.Matches r'.leaveScope where
  file := h.file
  locals := h.locals
  depth := h.depth
  scopes := by
    change r.reader.scopes.tail.length = r'.reader.scopes.tail.length
    rw [List.length_tail, List.length_tail, h.scopes]
  graph := h.graph

theorem isDeclaring (h : r.Matches r') : r.isDeclaring = r'.isDeclaring := by
  rw [Recorder.isDeclaring, Recorder.isDeclaring, h.depth]

theorem atFileScope (h : r.Matches r') : r.atFileScope = r'.atFileScope := by
  rw [Recorder.atFileScope, Recorder.atFileScope, h.isDeclaring, h.scopes]

theorem enterBody (h : r.Matches r') (item : Option ItemId) (line : Nat) :
    (r.enterBody item line).Matches (r'.enterBody item line) := by
  unfold Recorder.enterBody
  rw [h.isDeclaring]
  apply enterScope
  split <;> exact ⟨h.file, h.locals, congrArg Nat.succ h.depth, h.scopes, h.graph⟩

theorem leaveBody (h : r.Matches r') (before before' : Recorder) :
    (r.leaveBody before).Matches (r'.leaveBody before') :=
  ⟨h.file, h.locals, congrArg Nat.pred h.depth, h.leaveScope.scopes, h.graph⟩

/-! ## Items and tables -/

theorem declare (h : r.Matches r') {item item' : Item}
    (hitem : item.bare = item'.bare) :
    Agree (r.declare item) (r'.declare item') := by
  have hid : (r.declare item).1 = (r'.declare item').1 := by
    change (r.reader.declare item).1 = (r'.reader.declare item').1
    rw [CommentReader.fst_declare, CommentReader.fst_declare,
      ← Declarations.items_size_graph,
      ← Declarations.items_size_graph r'.reader.catalog.declarations]
    exact congrArg (·.items.size) h.graph
  refine ⟨hid, h.file, h.locals, h.depth, ?_, ?_⟩
  · change (r.reader.declare item).2.scopes.length =
      (r'.reader.declare item').2.scopes.length
    rw [CommentReader.scopes_declare, CommentReader.scopes_declare, h.scopes]
  · change (r.reader.declare item).2.catalog.declarations.graph =
      (r'.reader.declare item').2.catalog.declarations.graph
    rw [CommentReader.declarations_declare, CommentReader.declarations_declare,
      Declarations.graph_add, Declarations.graph_add, hitem]
    exact congrArg (·.add item'.bare) h.graph

theorem addLocal (h : r.Matches r') (name : Bytes) {id id' : ItemId}
    (hid : id = id') : (r.addLocal name id).Matches (r'.addLocal name id') :=
  ⟨h.file, congrArg₂ (Declarations.register · name) h.locals hid, h.depth,
    h.scopes, h.graph⟩

theorem isLocal (h : r.Matches r') (name : Bytes) :
    r.isLocal name = r'.isLocal name := by
  rw [Recorder.isLocal, Recorder.isLocal, h.locals]

theorem declareVariable (h : r.Matches r') (ident : Ident) (isLocal : Bool) :
    Agree (r.declareVariable ident isLocal)
      (r'.declareVariable ident isLocal) := by
  unfold Recorder.declareVariable
  rw [h.file]
  exact h.declare rfl

theorem declareField (h : r.Matches r') (table : TableId) (ident : Ident)
    {init init' index index' : Value} (hinit : init.bare = init'.bare)
    (hindex : index.bare = index'.bare) :
    Agree (r.declareField table ident init index)
      (r'.declareField table ident init' index') := by
  unfold Recorder.declareField
  rw [h.file]
  apply h.declare
  simp only [Item.bare, ItemShape.bare, hinit, hindex]

theorem declareFunction (h : r.Matches r') (head : FunctionHead) (isLocal : Bool) :
    Agree (r.declareFunction head isLocal) (r'.declareFunction head isLocal) := by
  unfold Recorder.declareFunction
  rw [h.file]
  exact h.declare rfl

theorem resolveTable (h : r.Matches r') (path : List Bytes) :
    r.resolveTable path = r'.resolveTable path := by
  have hlookup :
      r.catalog.declarations.lookup = r'.catalog.declarations.lookup := by
    funext name
    rw [← Declarations.lookup_graph, h.graph, Declarations.lookup_graph]
  have hmember :
      r.catalog.declarations.findMember = r'.catalog.declarations.findMember := by
    funext id path
    rw [← Declarations.findMember_graph, h.graph, Declarations.findMember_graph]
  have htable :
      r.catalog.declarations.tableOf = r'.catalog.declarations.tableOf := by
    rw [← Declarations.tableOf_graph, h.graph, Declarations.tableOf_graph]
  cases path with
  | nil => rfl
  | cons first path =>
      simp only [Recorder.resolveTable, h.locals, hlookup, hmember, htable]

theorem modifyItem (h : r.Matches r') (id : ItemId) {f f' g : Item → Item}
    (hf : ∀ item, (f item).bare = g item.bare)
    (hf' : ∀ item, (f' item).bare = g item.bare) :
    (r.mapCatalog (·.modifyItem id f)).Matches
      (r'.mapCatalog (·.modifyItem id f')) where
  file := h.file
  locals := h.locals
  depth := h.depth
  scopes := h.scopes
  graph := by
    change (r.catalog.declarations.modifyItem id f).graph =
      (r'.catalog.declarations.modifyItem id f').graph
    rw [Declarations.graph_modifyItem _ id hf,
      Declarations.graph_modifyItem _ id hf', h.graph]

theorem newTable (h : r.Matches r') (owner : Option ItemId) :
    Agree (r.newTable owner) (r'.newTable owner) := by
  unfold Recorder.newTable
  rw [h.isDeclaring]
  split
  next item =>
    split
    · refine ⟨congrArg (fun d => some d.tables.size) h.graph, h.file, h.locals,
        h.depth, h.scopes, ?_⟩
      change (r.catalog.declarations.addTable (some item)).graph =
        (r'.catalog.declarations.addTable (some item)).graph
      rw [Declarations.graph_addTable, Declarations.graph_addTable, h.graph]
    · exact ⟨rfl, h⟩
  next => exact ⟨rfl, h⟩

theorem setInit (h : r.Matches r') (id : Option ItemId) (init : Value)
    (table : Option TableId) :
    (r.setInit id init table).Matches (r'.setInit id init.bare table) := by
  cases id with
  | none => exact h
  | some id =>
      refine h.modifyItem id (g := (·.withInit (init.bare.withTable table))) ?_ ?_
      · intro item
        rw [Item.bare_withInit, Value.bare_withTable]
      · intro item
        rw [Item.bare_withInit, Value.bare_withTable]
        rfl

theorem setInits (h : r.Matches r') (ids : List (Option ItemId))
    (inits : List Value) (tables : List (Option TableId)) :
    (r.setInits ids inits tables).Matches
      (r'.setInits ids (inits.map Value.bare) tables) := by
  induction ids generalizing r r' inits tables with
  | nil => exact h
  | cons id ids ih =>
      cases inits with
      | nil => exact h
      | cons init inits => exact ih (h.setInit id init _) inits _

theorem declareLocals (h : r.Matches r') (names : List Ident) :
    Agree (r.declareLocals names) (r'.declareLocals names) := by
  induction names generalizing r r' with
  | nil => exact ⟨rfl, h⟩
  | cons ident idents ih =>
      unfold Recorder.declareLocals
      rw [h.atFileScope]
      split
      · have hfirst := h.declareVariable ident true
        have hrest := ih (hfirst.recorder.addLocal ident.name hfirst.result)
        exact ⟨congrArg₂ (fun id ids => some id :: ids) hfirst.result
          hrest.result, hrest.recorder⟩
      · exact ⟨congrArg (none :: ·) (ih h).result, (ih h).recorder⟩

theorem declareTarget (h : r.Matches r') (target : Target) :
    Agree (r.declareTarget target) (r'.declareTarget target.bare) := by
  unfold Recorder.declareTarget
  rw [h.isDeclaring]
  split
  · exact ⟨rfl, h⟩
  · have hpath : target.bare.path = target.path := rfl
    rw [hpath]
    split
    · exact ⟨rfl, h⟩
    next name _ =>
      rw [h.isLocal]
      exact (h.declareVariable ⟨name, target.pos⟩ (r'.isLocal name)).some
    next =>
      rw [h.resolveTable]
      split
      next table _ =>
        have hfield :
            Agree (r.declareField table ⟨target.path.getLastD [], target.pos⟩
              .none target.index)
            (r'.declareField table ⟨target.path.getLastD [], target.pos⟩ .none
              target.index.bare) :=
          h.declareField table _ rfl rfl
        exact hfield.some
      next =>
        exact ⟨rfl, h.affects (.mapCatalog (.note _ _)) (.mapCatalog (.note _ _))⟩

theorem declareTargets (h : r.Matches r') (targets : List Target) :
    Agree (r.declareTargets targets)
      (r'.declareTargets (targets.map Target.bare)) := by
  induction targets generalizing r r' with
  | nil => exact ⟨rfl, h⟩
  | cons target targets ih =>
      have hfirst := h.declareTarget target
      have hrest := ih hfirst.recorder
      exact ⟨congrArg₂ List.cons hfirst.result hrest.result, hrest.recorder⟩

theorem declareStatement (h : r.Matches r') (head : FunctionHead) :
    Agree (r.declareStatement head) (r'.declareStatement head) := by
  unfold Recorder.declareStatement
  rw [h.atFileScope, h.isDeclaring, h.isLocal]
  split
  · split
    · have hfunction := h.declareFunction head true
      exact ⟨congrArg some hfunction.result,
        hfunction.recorder.addLocal _ hfunction.result⟩
    · exact ⟨rfl, h⟩
  · split
    · exact ⟨rfl, h⟩
    · split
      · exact (h.declareFunction head _).some
      · exact (h.declareFunction head _).some
      · rw [h.resolveTable]
        split
        next table _ =>
          have hfield : Agree
              (r.declareField table head.ident
                (.ofToken (.function head.signature) r.source head.opening) .none)
              (r'.declareField table head.ident
                (.ofToken (.function head.signature) r'.source head.opening)
                .none) :=
            h.declareField table head.ident rfl rfl
          exact hfield.some
        next =>
          have hwarned (r : Recorder) (pos : Pos) (what : Warning) :
              r.Affects (r.warn pos what).discard :=
            (Affects.warn r pos what).trans (.discard _)
          exact ⟨rfl, h.affects (hwarned r _ _) (hwarned r' _ _)⟩

theorem finishStatement (h : r.Matches r') (id : Option ItemId) (pos : Pos) :
    (r.finishStatement id pos).Matches (r'.finishStatement id pos) := by
  unfold Recorder.finishStatement
  cases id with
  | none => exact h.withLast _ _
  | some id =>
      have hextended :=
        h.modifyItem id (g := (extendInit · pos)) (bare_extendInit · pos)
          (bare_extendInit · pos)
      exact hextended.withLast _ _

theorem declareEntry (h : r.Matches r') (table : Option TableId)
    (head : FieldHead) :
    Agree (r.declareEntry table head) (r'.declareEntry table head.bare) := by
  cases table with
  | none => exact ⟨rfl, h⟩
  | some table =>
      have hfield : Agree (r.declareField table head.ident .none head.index)
          (r'.declareField table head.ident .none head.index.bare) :=
            h.declareField table head.ident rfl rfl
      exact hfield.some

/-! ## The walk -/

theorem finish (h : r.Matches r') (ids : List (Option ItemId))
    (inits : Option (List Value)) (tables : List (Option TableId)) :
    ((inits.map fun inits =>
      { r.setInits ids inits tables with last := ids.getLast?.join }).getD
        r).Matches
      (((inits.map (·.map Value.bare)).map fun inits =>
        { r'.setInits ids inits tables with last := ids.getLast?.join }).getD
          r') := by
  cases inits with
  | none => exact h
  | some inits => exact (h.setInits ids inits tables).withLast _ _

mutual

theorem walk (node : Node) {r r' : Recorder} (h : r.Matches r')
    (owner : Option ItemId) (table : Option TableId) :
    Agree (Recorder.walk owner table r node)
      (Recorder.walk owner table r' node.bare) := by
  cases node with
  | comments offset =>
      rw [Node.bare, Recorder.walk, Recorder.walk]
      exact ⟨rfl, h.flush offset⟩
  | tableComments offset =>
      rw [Node.bare, Recorder.walk, Recorder.walk]
      refine ⟨rfl, ?_⟩
      dsimp only
      split
      · exact h.flush offset
      · exact h
  | tableEnd =>
      rw [Node.bare, Recorder.walk, Recorder.walk]
      refine ⟨rfl, ?_⟩
      dsimp only
      split
      · exact h.discard
      · exact h
  | discard =>
      rw [Node.bare, Recorder.walk, Recorder.walk]
      exact ⟨rfl, h.discard⟩
  | forget =>
      rw [Node.bare, Recorder.walk, Recorder.walk]
      exact ⟨rfl, h.withLast _ _⟩
  | statement inner =>
      rw [Node.bare, Recorder.walk, Recorder.walk]
      exact ⟨rfl,
        (walkAll inner (h.withLast none none) none none).recorder.discard⟩
  | scope inner =>
      rw [Node.bare, Recorder.walk, Recorder.walk]
      exact ⟨rfl, (walkAll inner h.enterScope none none).recorder.leaveScope⟩
  | body owned line inner =>
      rw [Node.bare, Recorder.walk, Recorder.walk]
      exact ⟨rfl,
        (walkAll inner (h.enterBody _ line) none none).recorder.leaveBody r _⟩
  | table owned inner =>
      rw [Node.bare, Recorder.walk, Recorder.walk]
      refine Agree.elim (h.newTable (if owned then owner else none))
        fun built s s' hs => ?_
      exact ⟨rfl, (walkAll inner hs none built).recorder⟩
  | value inner =>
      rw [Node.bare, Recorder.walk, Recorder.walk]
      exact walkAll inner h owner none
  | entry head inner init =>
      rw [Node.bare, Recorder.walk, Recorder.walk]
      refine Agree.elim (h.declareEntry table head) fun id s s' hs => ?_
      dsimp only
      refine Agree.elim (walkAll inner hs id none) fun built s s' hs => ⟨rfl, ?_⟩
      cases init with
      | none => exact hs
      | some init => exact hs.setInit id init built
  | locals names inner inits =>
      rw [Node.bare, Recorder.walk, Recorder.walk]
      refine Agree.elim (h.declareLocals names) fun ids s s' hs => ?_
      dsimp only
      refine Agree.elim (walkValues inner hs ids) fun tables s s' hs => ⟨rfl, ?_⟩
      exact hs.finish ids inits tables
  | assign targets inner inits =>
      rw [Node.bare, Recorder.walk, Recorder.walk]
      refine Agree.elim (h.declareTargets targets) fun ids s s' hs => ?_
      dsimp only
      refine Agree.elim (walkValues inner hs ids) fun tables s s' hs => ⟨rfl, ?_⟩
      exact hs.finish ids inits tables
  | function head inner stop =>
      rw [Node.bare, Recorder.walk, Recorder.walk]
      refine Agree.elim (h.declareStatement head) fun id s s' hs => ?_
      dsimp only
      refine Agree.elim (walkAll inner hs id none) fun _ s s' hs => ⟨rfl, ?_⟩
      cases stop with
      | none => exact hs
      | some stop => exact hs.finishStatement id stop

theorem walkAll (nodes : List Node) {r r' : Recorder} (h : r.Matches r')
    (owner : Option ItemId) (table : Option TableId) :
    Agree (Recorder.walkAll owner table r nodes)
      (Recorder.walkAll owner table r' (Node.bareAll nodes)) := by
  cases nodes with
  | nil =>
      rw [Node.bareAll, Recorder.walkAll, Recorder.walkAll]
      exact ⟨rfl, h⟩
  | cons node nodes =>
      rw [Node.bareAll, Recorder.walkAll, Recorder.walkAll]
      have hfirst := walk node h owner table
      have hrest := walkAll nodes hfirst.recorder owner table
      exact ⟨congrArg₂ Option.or hfirst.result hrest.result, hrest.recorder⟩

theorem walkValues (nodes : List Node) {r r' : Recorder} (h : r.Matches r')
    (ids : List (Option ItemId)) :
    Agree (Recorder.walkValues ids r nodes)
      (Recorder.walkValues ids r' (Node.bareAll nodes)) := by
  cases nodes with
  | nil =>
      rw [Node.bareAll, Recorder.walkValues, Recorder.walkValues]
      exact ⟨rfl, h⟩
  | cons node nodes =>
      rw [Node.bareAll, Recorder.walkValues, Recorder.walkValues]
      have hfirst := walk node h ids.head?.join none
      have hrest := walkValues nodes hfirst.recorder ids.tail
      exact ⟨congrArg₂ List.cons hfirst.result hrest.result, hrest.recorder⟩

end

/-! ## Sources -/

/-- Outlines that differ in source texts only are recorded alike. -/
theorem walkAll_alike {nodes nodes' : List Node}
    (hnodes : Node.bareAll nodes = Node.bareAll nodes') (h : r.Matches r')
    (owner : Option ItemId) (table : Option TableId) :
    (Recorder.walkAll owner table r nodes).2.Matches
      (Recorder.walkAll owner table r' nodes').2 := by
  have hbare := (walkAll nodes h owner table).recorder
  have hbare' := (walkAll nodes' (refl r') owner table).recorder
  rw [hnodes] at hbare
  exact hbare.trans hbare'.symm

theorem recordSource {same : Prop} (c c' : Catalog)
    (h : c.declarations.graph = c'.declarations.graph)
    (file source source' : Bytes) (tokens tokens' : List Token)
    {outline outline' : Outline} (houtline : outline.Alike same outline') :
    (Recorder.recordSource c file source tokens outline).Matches
      (Recorder.recordSource c' file source' tokens' outline') := by
  have hstart :
      (start c file source tokens).Matches (start c' file source' tokens') :=
    ⟨rfl, rfl, rfl, rfl, h⟩
  have hrecorded := walkAll_alike houtline.nodes hstart none none
  unfold Recorder.recordSource
  dsimp only
  have herror := houtline.error
  generalize outline.error = error at herror ⊢
  generalize outline'.error = error' at herror ⊢
  cases herror with
  | none =>
      exact ⟨hrecorded.file, hrecorded.locals, hrecorded.depth,
        hrecorded.scopes, hrecorded.graph⟩
  | some _ => exact hrecorded

end Matches

end Recorder

/-- The tokens of a source that the grammar sees, with the end of the input or a
fault at the end. -/
def mainTokens (source : Bytes) : List Token :=
  (tokenize source).filter (·.channel = .main)

/-- What the grammar sees of a token. -/
def Token.view (t : Token) : TokenKind × Bytes × Pos := (t.kind, t.value, t.pos)

theorem Token.Alike.of_view {same : Prop} {ts ts' : List Token}
    (hview : ts.map Token.view = ts'.map Token.view) (hsame : same → ts = ts') :
    List.Forall₂ (Token.Alike same) ts ts' := by
  induction ts generalizing ts' with
  | nil =>
      obtain rfl : ts' = [] := by simpa using hview.symm
      exact .nil
  | cons t ts ih =>
      cases ts' with
      | nil => simp at hview
      | cons t' ts' =>
          obtain ⟨hfirst, hrest⟩ := List.cons.inj hview
          obtain ⟨hkind, hvalue, hpos⟩ : t.kind = t'.kind ∧ t.value = t'.value ∧
              t.pos = t'.pos := by
            simpa [Token.view] using hfirst
          refine .cons ⟨hkind, hvalue, hpos, fun h =>
            (List.cons.inj (hsame h)).1⟩ ?_
          exact ih hrest fun h => (List.cons.inj (hsame h)).2

namespace SourceError

/-- An error without what it quotes of the source: the offending byte or
token. -/
def unquoted : SourceError → SourceError
  | lexical file pos cause _ => lexical file pos cause 0
  | syntactic file error => syntactic file error.unquoted

structure Alike (same : Prop) (e e' : SourceError) : Prop where
  unquoted : e.unquoted = e'.unquoted
  eq : same → e = e'

end SourceError

theorem Fault.text_injective {cause cause' : Fault}
    (h : cause.text = cause'.text) : cause = cause' := by
  cases cause <;> cases cause' <;> first | rfl | exact absurd h (by decide)

variable {same : Prop}

theorem Token.content_of_fault {t : Token} (h : t.kind = .fault) :
    ∃ cause byte, t.content = .fault cause byte := by
  cases hcontent : t.content with
  | fault cause byte => exact ⟨cause, byte, rfl⟩
  | _ => simp [Token.kind, hcontent, Content.kind] at h

namespace Token.Alike

theorem ofToken? {t t' : Token} (h : t.Alike same t') (file : Bytes) :
    Option.Rel (SourceError.Alike same) (SourceError.ofToken? file t)
      (SourceError.ofToken? file t') := by
  by_cases hfault : t.kind = .fault
  · obtain ⟨cause, byte, hcontent⟩ := content_of_fault hfault
    obtain ⟨cause', byte', hcontent'⟩ := content_of_fault (h.kind ▸ hfault)
    have hcause : cause = cause' := by
      apply Fault.text_injective
      simpa [Token.value, hcontent, hcontent'] using h.value
    simp only [SourceError.ofToken?, hcontent, hcontent', hcause, h.pos]
    refine .some ⟨rfl, fun hsame => ?_⟩
    rw [h.eq hsame, hcontent'] at hcontent
    rw [(Content.fault.inj hcontent).2]
  · rw [ofToken?_eq_none.2 hfault, ofToken?_eq_none.2 (h.kind ▸ hfault)]
    exact .none

theorem findSome? {ts ts' : List Token}
    (h : List.Forall₂ (Token.Alike same) ts ts') (file : Bytes) :
    Option.Rel (SourceError.Alike same) (ts.findSome? (SourceError.ofToken? file))
      (ts'.findSome? (SourceError.ofToken? file)) := by
  induction h with
  | nil => exact .none
  | @cons t t' ts ts' ht _ ih =>
      rw [List.findSome?_cons, List.findSome?_cons]
      have hfirst := ht.ofToken? file
      generalize SourceError.ofToken? file t = error at hfirst ⊢
      generalize SourceError.ofToken? file t' = error' at hfirst ⊢
      cases hfirst with
      | none => exact ih
      | some he => exact .some he

end Token.Alike

theorem findSome?_main (tokens : List Token) (file : Bytes) :
    (tokens.filter (!·.kind.isComment)).findSome? (SourceError.ofToken? file) =
      tokens.findSome? (SourceError.ofToken? file) := by
  induction tokens with
  | nil => rfl
  | cons t ts ih =>
      by_cases hcomment : t.kind.isComment
      · have hnone : SourceError.ofToken? file t = none := by
          apply Token.ofToken?_eq_none.2
          intro hfault
          simp [hfault, TokenKind.isComment] at hcomment
        simp [hcomment, hnone, ih]
      · simp [hcomment, List.findSome?_cons, ih]

theorem Outline.Alike.ofSource {source source' : Bytes}
    {tokens tokens' : List Token}
    (h : List.Forall₂ (Token.Alike same) (tokens.filter (!·.kind.isComment))
      (tokens'.filter (!·.kind.isComment))) :
    (Outline.ofSource source tokens).Alike same
      (Outline.ofSource source' tokens') := by
  unfold Outline.ofSource
  generalize tokens.filter (!·.kind.isComment) = main at h ⊢
  generalize tokens'.filter (!·.kind.isComment) = main' at h ⊢
  have hlast : main.getLast?.map (·.pos) = main'.getLast?.map (·.pos) := by
    rw [← List.head?_reverse, ← List.head?_reverse]
    have hreverse := List.forall₂_reverse_iff.2 h
    generalize main.reverse = ts at hreverse ⊢
    generalize main'.reverse = ts' at hreverse ⊢
    cases hreverse with
    | nil => rfl
    | cons ht _ => simp [ht.pos]
  dsimp only
  rw [hlast]
  apply Outline.Alike.ofTokens
  rw [List.dropLast_eq_take, List.dropLast_eq_take, h.length_eq]
  exact List.forall₂_take _ h

namespace Catalog

theorem readSource_alike {c c' : Catalog}
    (hgraph : c.declarations.graph = c'.declarations.graph) (file : Bytes)
    {source source' : Bytes}
    (htokens :
      List.Forall₂ (Token.Alike same) (mainTokens source) (mainTokens source')) :
    Option.Rel (SourceError.Alike same)
      (c.readSource file source).1 (c'.readSource file source').1 ∧
      (c.readSource file source).2.declarations.graph =
        (c'.readSource file source').2.declarations.graph := by
  rw [mainTokens, mainTokens, filter_channel, filter_channel] at htokens
  have hfault := Token.Alike.findSome? htokens file
  rw [findSome?_main, findSome?_main] at hfault
  have houtline : (Outline.ofSource source (tokenize source)).Alike same
      (Outline.ofSource source' (tokenize source')) :=
    .ofSource htokens
  unfold readSource
  dsimp only
  generalize (tokenize source).findSome? (SourceError.ofToken? file) =
    fault at hfault ⊢
  generalize (tokenize source').findSome? (SourceError.ofToken? file) =
    fault' at hfault ⊢
  cases hfault with
  | some he => exact ⟨.some he, hgraph⟩
  | none =>
      have hrecorded := Recorder.Matches.recordSource
        { c with declarations := c.declarations.addSource ⟨file, source⟩ }
        { c' with declarations := c'.declarations.addSource ⟨file, source'⟩ }
        hgraph file source source' (tokenize source) (tokenize source') houtline
      have herror := houtline.error
      dsimp only
      generalize Outline.ofSource source (tokenize source) =
        outline at hrecorded herror ⊢
      generalize Outline.ofSource source' (tokenize source') =
        outline' at hrecorded herror ⊢
      obtain ⟨nodes, error⟩ := outline
      obtain ⟨nodes', error'⟩ := outline'
      cases herror with
      | none => exact ⟨.none, hrecorded.graph⟩
      | some he =>
          refine ⟨.some ⟨?_, fun hsame => ?_⟩, hrecorded.graph⟩
          · exact congrArg (SourceError.syntactic file) he.unquoted
          · exact congrArg (SourceError.syntactic file) (he.eq hsame)

/-- Comments never influence declarations: whether a source is accepted, why and
where it is not, and what it adds to the item graph depend on the tokens of the
grammar alone.  If the tokens are written alike, the errors say the same too. -/
theorem readSource_noninterference (c c' : Catalog)
    (file source source' : Bytes)
    (hgraph : c.declarations.graph = c'.declarations.graph)
    (htokens : (mainTokens source).map Token.view =
      (mainTokens source').map Token.view) :
    (c.readSource file source).1.map SourceError.unquoted =
      (c'.readSource file source').1.map SourceError.unquoted ∧
      (mainTokens source = mainTokens source' →
        (c.readSource file source).1 = (c'.readSource file source').1) ∧
      (c.readSource file source).2.declarations.graph =
        (c'.readSource file source').2.declarations.graph := by
  have halike :
      List.Forall₂ (Token.Alike (mainTokens source = mainTokens source'))
        (mainTokens source)
      (mainTokens source') := Token.Alike.of_view htokens id
  obtain ⟨herror, hafter⟩ := readSource_alike hgraph file halike
  generalize (c.readSource file source).1 = error at herror ⊢
  generalize (c'.readSource file source').1 = error' at herror ⊢
  cases herror with
  | none => exact ⟨rfl, fun _ => rfl, hafter⟩
  | some he =>
      exact ⟨congrArg some he.unquoted, fun hsame =>
        congrArg some (he.eq hsame), hafter⟩

private def documentedSource : Bytes :=
  utf8 "--! a\nt = \x7bp = 1 --!< b\n\x7d\nfunction t.q(u) return 'v' end\n"

/-- The same without documentation; the string is written with other quotes. -/
private def undocumentedSource : Bytes :=
  utf8 "--  a\nt = \x7bp = 1 --   b\n\x7d\nfunction t.q(u) return \"v\" end\n"

private def remarkedCatalog : Catalog :=
  ((Catalog.empty .default).readSource (utf8 "b.lua") (utf8 "--! @page x")).2

/-- What is documented differs, what is declared does not. -/
theorem readSource_noninterference_sample :
    (remarkedCatalog.readSource (utf8 "a.lua")
      documentedSource).2.docs.blocks.size = 3 ∧
      ((Catalog.empty .default).readSource (utf8 "a.lua")
        undocumentedSource).2.docs.blocks.size = 0 ∧
      (remarkedCatalog.readSource (utf8 "a.lua")
        documentedSource).2.declarations.items.size = 3 ∧
      (remarkedCatalog.readSource (utf8 "a.lua")
        documentedSource).2.declarations.graph =
        ((Catalog.empty .default).readSource (utf8 "a.lua")
          undocumentedSource).2.declarations.graph := by
  refine ⟨by decide +kernel, by decide +kernel, by decide +kernel, ?_⟩
  exact (readSource_noninterference remarkedCatalog (.empty .default)
    (utf8 "a.lua") documentedSource
    undocumentedSource (by decide +kernel) (by decide +kernel)).2.2

/-- An error quotes a string as it is written, so that equal kinds, values and
positions do not make equal errors. -/
theorem readSource_quotes_lexeme :
    (mainTokens (utf8 "--!x\n'a'")).map Token.view =
      (mainTokens (utf8 "--!y\n\"a\"")).map Token.view ∧
      ((Catalog.empty .default).readSource (utf8 "a.lua") (utf8 "--!x\n'a'")).1 ≠
        ((Catalog.empty .default).readSource (utf8 "a.lua")
          (utf8 "--!y\n\"a\"")).1 := by
  decide +kernel

end Catalog

end LuaGloss

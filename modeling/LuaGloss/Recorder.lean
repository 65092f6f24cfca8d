import LuaGloss.Comment.Reader
import LuaGloss.Syntax.Outline

/-!
# Recording declarations

A recorder goes through the outline of a source from left to right.  It adds the
declarations that it meets to the catalog and hands the comments to the comment
reader at the places where the outline says so.

Inside function bodies nothing is declared.  Local variables count only at the
top level of the file.  The fields of a table constructor are recorded if the
table is the initializer of something that was declared.
-/

namespace LuaGloss

/-- The structured comments of a source, each run under the offset of the token
that follows it. -/
abbrev CommentRuns := List (Nat × List Token)

namespace CommentRuns

/-- Runs of comments, where `pending` are the comments since the last token. -/
def collect (pending : List Token) : List Token → CommentRuns
  | [] => []
  | t :: ts =>
    if t.kind.isComment then collect (pending ++ [t]) ts
    else if pending.isEmpty then collect [] ts
    else (t.pos.offset, pending) :: collect [] ts

def ofTokens (tokens : List Token) : CommentRuns := collect [] tokens

end CommentRuns

structure Recorder where
  file : Bytes
  source : Bytes
  reader : CommentReader
  /-- The comments that have not been read. -/
  comments : CommentRuns
  /-- The local variables of the file, by the first declaration of each name. -/
  locals : List (Bytes × ItemId)
  /-- The number of the scope that was entered last. -/
  lastScope : Int
  /-- The number of function bodies around. -/
  depth : Nat
  /-- What a comment that points back refers to. -/
  last : Option ItemId
  /-- What a comment that points back refers to on the line where the parameters
  of the outermost function end. -/
  header : Option ItemId
  headerLine : Nat

namespace Recorder

def start (catalog : Catalog) (file source : Bytes) (tokens : List Token) :
    Recorder where
  file
  source
  reader := .ofCatalog catalog [0]
  comments := .ofTokens tokens
  locals := []
  lastScope := 0
  depth := 0
  last := none
  header := none
  headerLine := 0

def catalog (r : Recorder) : Catalog := r.reader.catalog

def mapReader (r : Recorder) (f : CommentReader → CommentReader) : Recorder :=
  { r with reader := f r.reader }

def mapCatalog (r : Recorder) (f : Catalog → Catalog) : Recorder :=
  r.mapReader (·.mapCatalog f)

def warn (r : Recorder) (pos : Pos) (what : Warning) : Recorder :=
  r.mapCatalog (·.warn r.file pos what)

def discard (r : Recorder) : Recorder := r.mapReader (·.discard)

def isDeclaring (r : Recorder) : Bool := r.depth == 0

def atFileScope (r : Recorder) : Bool :=
  r.isDeclaring && r.reader.scopes.length == 1

/-! ## Comments -/

/-- Whether a comment continues the one before: both take one line, and the
lines follow each other. -/
def continues (previous : Option Token) (t : Token) : Bool :=
  previous.any fun p =>
    !p.isRetroactive && p.kind == .comment .line && t.kind == .comment .line &&
      t.pos.line == p.pos.line + 1

/-- Reads a comment inside a function body, where only a remark on the line of
the function's head counts. -/
def readInBody (r : Recorder) (t : Token) : Recorder :=
  match r.header with
  | some item =>
    if t.isRetroactive && t.pos.line == r.headerLine then
      r.mapReader (·.readBack t.value r.file t.pos item)
    else r
  | none => r

def readComment (r : Recorder) (previous : Option Token) (t : Token) : Recorder :=
  if t.isRetroactive then
    match r.last with
    | some item => r.mapReader (·.readBack t.value r.file t.pos item)
    | none => r.warn t.pos .nothingToReferBackTo
  else r.mapReader (·.readAhead t.value r.file t.pos (continues previous t))

def readComments (r : Recorder) (previous : Option Token) : List Token → Recorder
  | [] => r
  | t :: ts => readComments (r.readComment previous t) (some t) ts

def flush (r : Recorder) (offset : Nat) : Recorder :=
  match r.comments.lookup offset with
  | none => r
  | some run =>
    let r := { r with comments := r.comments.filter (·.1 != offset) }
    if r.isDeclaring then r.readComments none run else run.foldl readInBody r

/-- What holds between a recorder before and after each comment holds between
the two ends of a run of comments. -/
theorem flush_of_steps {R : Recorder → Recorder → Prop} (refl : ∀ r, R r r)
    (trans : ∀ {r r' r''}, R r r' → R r' r'' → R r r'')
    (take : ∀ r offset,
      R r { r with comments := r.comments.filter (·.1 != offset) })
    (inBody : ∀ r t, R r (r.readInBody t))
    (outside : ∀ r previous t, R r (r.readComment previous t)) (r : Recorder)
    (offset : Nat) : R r (r.flush offset) := by
  have hcomments (run : List Token) (r : Recorder) (previous : Option Token) :
      R r (r.readComments previous run) := by
    induction run generalizing r previous with
    | nil => exact refl r
    | cons t ts ih => exact trans (outside r previous t) (ih _ _)
  have hbody (run : List Token) (r : Recorder) : R r (run.foldl readInBody r) := by
    induction run generalizing r with
    | nil => exact refl r
    | cons t ts ih => exact trans (inBody r t) (ih _)
  unfold flush
  split
  · exact refl r
  next run _ =>
    dsimp only
    split
    · exact trans (take r offset) (hcomments run _ none)
    · exact trans (take r offset) (hbody run _)

/-! ## Scopes -/

def enterScope (r : Recorder) : Recorder :=
  { r with
    lastScope := r.lastScope + 1
    reader := r.reader.enterScope (r.lastScope + 1) }

def leaveScope (r : Recorder) : Recorder := r.mapReader (·.leaveScope)

def enterBody (r : Recorder) (item : Option ItemId) (line : Nat) : Recorder :=
  let r :=
    if r.isDeclaring then { r with header := item, headerLine := line } else r
  { r with depth := r.depth + 1, last := none }.enterScope

def leaveBody (r before : Recorder) : Recorder :=
  { r.leaveScope with
    depth := r.depth - 1
    last := before.last
    header := before.header
    headerLine := before.headerLine }

/-! ## Declarations -/

def declare (r : Recorder) (item : Item) : ItemId × Recorder :=
  let (id, reader) := r.reader.declare item
  (id, { r with reader, last := some id })

def addLocal (r : Recorder) (name : Bytes) (id : ItemId) : Recorder :=
  { r with locals := Declarations.register r.locals name id }

def isLocal (r : Recorder) (name : Bytes) : Bool := (r.locals.lookup name).isSome

def declareVariable (r : Recorder) (ident : Ident) (isLocal : Bool) :
    ItemId × Recorder :=
  r.declare ⟨ident.name, r.file, ident.pos, isLocal, true, .variable_ .none⟩

def declareField (r : Recorder) (table : TableId) (ident : Ident)
    (init index : Value) : ItemId × Recorder :=
  r.declare ⟨ident.name, r.file, ident.pos, false, true, .field table init index⟩

def declareFunction (r : Recorder) (head : FunctionHead) (isLocal : Bool) :
    ItemId × Recorder :=
  r.declare ⟨head.ident.name, r.file, head.ident.pos, isLocal, true,
    .function head.signature⟩

/-- The table that a dotted name leads to.  Local variables hide global ones. -/
def resolveTable (r : Recorder) (path : List Bytes) : Option TableId :=
  match path with
  | [] => none
  | first :: path =>
    let declarations := r.catalog.declarations
    (((r.locals.lookup first).or (declarations.lookup first)).bind
      (declarations.findMember · path)).bind
      declarations.tableOf

/-- Gives an item its initializer, whose table, if it is one, has the given
number. -/
def setInit (r : Recorder) (id : Option ItemId) (init : Value)
    (table : Option TableId) : Recorder :=
  match id with
  | none => r
  | some id => r.mapCatalog (·.modifyItem id (·.withInit (init.withTable table)))

def setInits (r : Recorder) :
    List (Option ItemId) → List Value → List (Option TableId) → Recorder
  | id :: ids, init :: inits, tables =>
    setInits (r.setInit id init tables.head?.join) ids inits tables.tail
  | _, _, _ => r

def declareLocals (r : Recorder) : List Ident → List (Option ItemId) × Recorder
  | [] => ([], r)
  | ident :: idents =>
    if r.atFileScope then
      let (id, r) := r.declareVariable ident true
      let (ids, r) := declareLocals (r.addLocal ident.name id) idents
      (some id :: ids, r)
    else
      let (ids, r) := declareLocals r idents
      (none :: ids, r)

/-- Declares the target of an assignment, if it is a variable or a field of a
known table. -/
def declareTarget (r : Recorder) (target : Target) : Option ItemId × Recorder :=
  if !r.isDeclaring then (none, r)
  else
    match target.path with
    | [] => (none, r)
    | [name] =>
      let (id, r) := r.declareVariable ⟨name, target.pos⟩ (r.isLocal name)
      (some id, r)
    | path =>
      match r.resolveTable path.dropLast with
      | some table =>
        let (id, r) :=
          r.declareField table ⟨path.getLastD [], target.pos⟩ .none target.index
        (some id, r)
      | none =>
        (none, r.mapCatalog
          (·.note (.ignoredAssignment r.file target.pos.line target.text)))

def declareTargets (r : Recorder) : List Target → List (Option ItemId) × Recorder
  | [] => ([], r)
  | target :: targets =>
    let (id, r) := r.declareTarget target
    let (ids, r) := declareTargets r targets
    (id :: ids, r)

/-- Declares the function of a function statement.  A dotted name makes it a
field. -/
def declareStatement (r : Recorder) (head : FunctionHead) :
    Option ItemId × Recorder :=
  if head.isLocal then
    if r.atFileScope then
      let (id, r) := r.declareFunction head true
      (some id, r.addLocal head.ident.name id)
    else (none, r)
  else if !r.isDeclaring then (none, r)
  else
    match head.signature.name.path with
    | [] | [_] =>
      let (id, r) := r.declareFunction head (r.isLocal head.ident.name)
      (some id, r)
    | path =>
      match r.resolveTable path.dropLast with
      | some table =>
        let init := Value.ofToken (.function head.signature) r.source head.opening
        let (id, r) := r.declareField table head.ident init .none
        (some id, r)
      | none =>
        (none, (r.warn head.ident.pos
          (.ownerIsNoTable head.signature.name.text)).discard)

/-- The value of a function that is a field reaches up to the last token of its
statement. -/
def extendInit (item : Item) (pos : Pos) : Item :=
  match item.shape with
  | .field table init index =>
    { item with shape := .field table (init.extend pos) index }
  | .variable_ _ | .function _ => item

def finishStatement (r : Recorder) (id : Option ItemId) (pos : Pos) : Recorder :=
  let r := match id with
    | some id => r.mapCatalog (·.modifyItem id (extendInit · pos))
    | none => r
  { r with last := id }

def newTable (r : Recorder) (owner : Option ItemId) : Option TableId × Recorder :=
  match owner with
  | some item =>
    if r.isDeclaring then
      let (table, catalog) := r.catalog.newTable (some item)
      (some table, { r with reader := { r.reader with catalog } })
    else (none, r)
  | none => (none, r)

def declareEntry (r : Recorder) (table : Option TableId) (head : FieldHead) :
    Option ItemId × Recorder :=
  match table with
  | some table =>
    let (id, r) := r.declareField table head.ident .none head.index
    (some id, r)
  | none => (none, r)

/-! ## The walk -/

mutual

/-- Goes through a node.  Inside an expression `owner` is the item that it
initializes, and the result is the table that was built for it; inside a table
constructor `table` is the table whose entries are recorded. -/
def walk (owner : Option ItemId) (table : Option TableId) (r : Recorder) :
    Node → Option TableId × Recorder
  | .comments offset => (none, r.flush offset)
  | .tableComments offset => (none, if table.isSome then r.flush offset else r)
  | .tableEnd => (none, if table.isSome then r.discard else r)
  | .discard => (none, r.discard)
  | .forget => (none, { r with last := none })
  | .statement inner =>
    (none, (walkAll none none { r with last := none } inner).2.discard)
  | .scope inner => (none, (walkAll none none r.enterScope inner).2.leaveScope)
  | .body owned line inner =>
    (none, (walkAll none none (r.enterBody (if owned then owner else none) line)
      inner).2.leaveBody r)
  | .table owned inner =>
    let (built, r) := r.newTable (if owned then owner else none)
    (built, (walkAll none built r inner).2)
  | .value inner => walkAll owner none r inner
  | .entry head inner init =>
    let (id, r) := r.declareEntry table head
    let (built, r) := walkAll id none r inner
    (none, (init.map (r.setInit id · built)).getD r)
  | .locals names inner inits =>
    let (ids, r) := r.declareLocals names
    let (tables, r) := walkValues ids r inner
    (none, (inits.map fun inits =>
      { r.setInits ids inits tables with last := ids.getLast?.join }).getD r)
  | .assign targets inner inits =>
    let (ids, r) := r.declareTargets targets
    let (tables, r) := walkValues ids r inner
    (none, (inits.map fun inits =>
      { r.setInits ids inits tables with last := ids.getLast?.join }).getD r)
  | .function head inner stop =>
    let (id, r) := r.declareStatement head
    let (_, r) := walkAll id none r inner
    (none, (stop.map (r.finishStatement id)).getD r)

/-- Goes through nodes one after the other; the result is the first table that
was built. -/
def walkAll (owner : Option ItemId) (table : Option TableId) (r : Recorder) :
    List Node → Option TableId × Recorder
  | [] => (none, r)
  | node :: nodes =>
    let (built, r) := walk owner table r node
    let (more, r) := walkAll owner table r nodes
    (built.or more, r)

/-- Goes through a list of expressions, of which each initializes the next item;
the tables that were built. -/
def walkValues (ids : List (Option ItemId)) (r : Recorder) :
    List Node → List (Option TableId) × Recorder
  | [] => ([], r)
  | node :: nodes =>
    let (built, r) := walk ids.head?.join none r node
    let (more, r) := walkValues ids.tail r nodes
    (built :: more, r)

end

def record (r : Recorder) (outline : Outline) : Recorder :=
  (walkAll none none r outline.nodes).2

end Recorder

end LuaGloss

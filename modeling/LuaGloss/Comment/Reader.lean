import LuaGloss.Catalog.Reference

/-!
# Reading comments

The comment reader turns the text of structured comments into documentation
blocks.  It remembers the block that waits for the next declaration, where the
next comment line may go on writing, and the group regions that are open.

A group region belongs to the scope in which it was opened.  The group of the
innermost region is active only in that scope, and the region is closed at the
latest when the scope is left.
-/

namespace LuaGloss

/-- The part of a block that text goes into. -/
inductive BlockPart where
  | detailed
  | brief
  | seeAlso
  deriving DecidableEq, Repr

/-- Where a comment writes: a part of a block, and the group that the comment
has named last. -/
structure WritePlace where
  block : BlockId
  part : BlockPart
  group : Option GroupId
  deriving DecidableEq, Repr

/-- A stretch of a source whose declarations belong to a group. -/
structure Region where
  scope : Int
  group : GroupId
  deriving DecidableEq, Repr

structure CommentReader where
  catalog : Catalog
  /-- The block that waits for the next declaration. -/
  pending : Option BlockId
  /-- Where a comment that continues the last one goes on writing. -/
  resume : Option WritePlace
  /-- The open regions, innermost first. -/
  regions : List Region
  /-- The scopes that are open, innermost first. -/
  scopes : List Int
  /-- The name that was documented last as an overload, and how often in a
  row. -/
  overload : Option (Bytes × Nat)

/-- A comment that is being read. -/
structure Reading where
  reader : CommentReader
  file : Bytes
  pos : Pos
  place : WritePlace

namespace CommentReader

def ofCatalog (catalog : Catalog) (scopes : List Int) : CommentReader :=
  ⟨catalog, none, none, [], scopes, none⟩

variable (r : CommentReader)

def currentScope : Int := r.scopes.headD 0

def mapCatalog (f : Catalog → Catalog) : CommentReader :=
  { r with catalog := f r.catalog }

/-- The group of the innermost region, if it was opened in the current scope. -/
def activeGroup? : Option GroupId :=
  match r.regions with
  | [] => none
  | region :: _ =>
    if region.scope = r.currentScope then some region.group else none

def closeRegions (scope : Int) : CommentReader :=
  { r with regions := r.regions.dropWhile fun region => region.scope == scope }

def discard : CommentReader := { r with pending := none, resume := none }

def enterScope (scope : Int) : CommentReader :=
  { r.discard with scopes := scope :: r.scopes }

def leaveScope : CommentReader :=
  ({ r with scopes := r.scopes.tail }.closeRegions r.currentScope).discard

def offered? : Option BlockId :=
  r.pending.filter fun id => !(r.catalog.docs.block? id).any (·.hasTarget)

/-- Hands the waiting block to a declaration.  In a region there is always one,
and it belongs to a group. -/
def takeBlock : Option BlockId × CommentReader :=
  let offered := r.offered?
  let r := r.discard
  match r.activeGroup? with
  | none => (offered, r)
  | some group =>
    let (id, catalog) := match offered with
      | some id => (id, r.catalog)
      | none => r.catalog.newBlock [] .none
    (some id,
      { r with
        catalog := catalog.modifyBlock id fun b =>
          { b with group := b.group.or (some group) } })

def declare (item : Item) : ItemId × CommentReader :=
  let (block, r) := r.takeBlock
  let (id, catalog) := r.catalog.addItem item
  match block with
  | some block => (id, { r with catalog := catalog.attach id block })
  | none => (id, { r with catalog })

end CommentReader

namespace Reading

def mapCatalog (s : Reading) (f : Catalog → Catalog) : Reading :=
  { s with reader := s.reader.mapCatalog f }

def warn (s : Reading) (what : Warning) : Reading :=
  s.mapCatalog (·.warn s.file s.pos what)

def modifyBlock (s : Reading) (f : Block → Block) : Reading :=
  s.mapCatalog (·.modifyBlock s.place.block f)

def block? (s : Reading) : Option Block :=
  s.reader.catalog.docs.block? s.place.block

variable (s : Reading) (command : Command) (argument : Bytes)

def toPart (part : BlockPart) : Reading :=
  { s with place := { s.place with part } }

/-- Text at the beginning of a description or a line loses its indentation. -/
def appendText (description text : Bytes) : Bytes :=
  if description.getLastD Byte.lineFeed = Byte.lineFeed then
    description ++ text.trimLeft Byte.isIndent
  else description ++ text

def appendLine (description indent : Bytes) : Bytes :=
  if description.isEmpty then [] else description ++ Byte.lineFeed :: indent

def isSeparator (b : UInt8) : Bool := b == Byte.comma || Byte.isIndent b

/-- The names in a list of references; a function may be written with empty
parentheses. -/
def seeAlsoNames (text : Bytes) : List Bytes :=
  let words :=
    Bytes.splitOn Byte.space (text.map fun b => if isSeparator b then
      Byte.space else b)
  (words.map (Bytes.dropSuffix (utf8 "()"))).filter (!·.isEmpty)

def addText (text : Bytes) : Reading :=
  match s.place.part with
  | .detailed =>
    s.modifyBlock fun b => { b with detailed := appendText b.detailed text }
  | .brief => s.modifyBlock fun b => { b with brief := appendText b.brief text }
  | .seeAlso =>
    s.mapCatalog fun c =>
      (seeAlsoNames text).foldl (·.addSeeAlso s.place.block ·) c

def addLine (indent : Bytes) : Reading :=
  match s.place.part with
  | .detailed =>
    s.modifyBlock fun b => { b with detailed := appendLine b.detailed indent }
  | .brief => s.modifyBlock fun b => { b with brief := appendLine b.brief indent }
  | .seeAlso => s

/-- An empty line ends every part but the detailed description, in which it is
kept. -/
def addEmptyLine : Reading :=
  if s.place.part = .detailed then s.addLine [] else s.toPart .detailed

def splitWord (text : Bytes) : Bytes × Bytes :=
  let text := text.trimLeft Byte.isIndent
  (text.takeWhile (!Byte.isIndent ·), text.dropWhile (!Byte.isIndent ·))

def overloadLimit : Nat := 0x7FFFFFFFFFFFFFFF

/-- The number that a word denotes.  Signs are allowed, but there is no negative
number. -/
def overloadNumber? (word : Bytes) : Option Nat :=
  let (isNegative, digits) := match word with
    | Byte.plus :: digits => (false, digits)
    | Byte.dash :: digits => (true, digits)
    | digits => (false, digits)
  let n := Bytes.toNat 10 digits
  if digits.isEmpty || !digits.all Byte.isDigit || overloadLimit < n ||
    (isNegative && n != 0) then none
  else some n

/-- Opens a region of the group that the comment has named, or of the group that
its block belongs to. -/
def openRegion : Reading :=
  match s.place.group.or (s.block?.bind (·.group)) with
  | none => s.warn .regionWithoutGroup
  | some group =>
    { s with
      reader := { s.reader with
        regions := ⟨s.reader.currentScope, group⟩ :: s.reader.regions } }

def closeRegion : Reading :=
  match s.reader.regions with
  | [] => s.warn .unmatchedRegionEnd
  | _ :: regions => { s with reader := { s.reader with regions } }

def startFootnote : Reading :=
  let id := s.reader.catalog.docs.blocks.size
  let s := s.mapCatalog (·.mapDocs (·.addFootnote s.place.block))
  { s with place := { s.place with block := id, part := .detailed } }

def setTitle : Reading :=
  s.modifyBlock fun b => { b with title := argument.trim }

def joinGroup : Reading × Bytes :=
  let (name, rest) := splitWord argument
  if name.isEmpty then (s.warn (.missingGroupName command), rest)
  else
    let (group, docs) := s.reader.catalog.docs.getGroup name
    let s := s.mapCatalog fun c => { c with docs }
    let s := { s with place := { s.place with group := some group } }
    (s.modifyBlock fun b => { b with group := some group }, rest)

/-- Describes a group: the rest of the comment belongs to it.  In a region the
group lies in the region's group. -/
def defineGroup : Reading × Bytes :=
  let (name, rest) := splitWord argument
  if name.isEmpty then (s.warn (.missingGroupName command), rest)
  else
    let (group, docs) := s.reader.catalog.docs.getGroup name
    let s := s.mapCatalog fun c => { c with docs }
    let block := ((docs.group? group).map (·.block)).getD 0
    let title := rest.trim
    let active := s.reader.activeGroup?.filter (· != group)
    let s := s.mapCatalog (·.modifyBlock block fun b =>
      { b with
        title := if title.isEmpty then b.title else title
        file := if b.file.isEmpty then s.file else b.file
        pos := if b.file.isEmpty then s.pos else b.pos
        group := b.group.or active })
    let pending := s.reader.pending.filter (· != s.place.block)
    ({ s with
        reader := { s.reader with pending }
        place := ⟨block, .detailed, some group⟩ }, [])

/-- The number of the overload that a target command means, given the words
after the name.  Overloads of one name that are documented in a row are
counted. -/
def targetNumber (name rest : Bytes) : Nat :=
  if command = .overload then
    match s.reader.overload with
    | some (last, n) => if last = name then n + 1 else 1
    | none => 1
  else (overloadNumber? (splitWord rest).1).getD 0

def setTarget (s : Reading) (command : Command) (argument : Bytes) :
    Reading × Bytes :=
  let (name, rest) := splitWord argument
  if name.isEmpty then (s.warn (.missingTargetName command), rest)
  else
    let n := s.targetNumber command name rest
    let s :=
      if command = .overload then
        { s with reader := { s.reader with overload := some (name, n) } } else s
    (s.mapCatalog (·.setTarget s.place.block command name n), [])

def addImport : Reading × Bytes :=
  let (name, rest) := splitWord argument
  if name.isEmpty then (s.warn .missingImportName, rest)
  else (s.modifyBlock fun b => { b with imports := b.imports ++ [name] }, rest)

def obey : Reading × Bytes :=
  match command with
  | .footnote => (s.startFootnote, argument)
  | .brief => (s.toPart .brief, argument)
  | .see => (s.toPart .seeAlso, argument)
  | .title => (s.setTitle argument, [])
  | .import_ => s.addImport argument
  | .group | .subGroup => s.defineGroup command argument
  | .inGroup => s.joinGroup command argument
  | _ => s.setTarget command argument

def obeyCustom (mark : UInt8) (name argument : Bytes) : Reading × Bytes :=
  match s.reader.catalog.vocabulary.find? name with
  | none => (s.addText (mark :: name), argument)
  | some command =>
    let (param, rest) := splitWord argument
    (s.modifyBlock fun b => { b with tags := b.tags ++ command.leaves param },
      if command.takesParam then rest else argument)

def argumentOf : List CommentToken → Bytes
  | .text s :: _ => s
  | _ => []

/-- A new line, given what comes after it.  The first indentation is taken away
from all further lines. -/
def addNewLine (indent blank : Bytes) (after : List CommentToken) : Reading :=
  match after with
  | .newLine _ _ :: _ => s.addEmptyLine
  | .endOfText :: _ => s.addLine []
  | _ => s.addLine (Bytes.dropPrefix indent blank)

def hasLine : List CommentToken → Bool
  | .newLine _ _ :: _ | .endOfText :: _ => false
  | _ => true

/-- Reads tokens, where `indent` is the indentation of the first line that was
read, and `left` what the last command has left of the text after it. -/
def readTokens (s : Reading) (indent left : Option Bytes) :
    List CommentToken → Reading
  | [] => s
  | token :: rest =>
    match token with
    | .endOfText => s
    | .text text => readTokens (s.addText (left.getD text)) indent none rest
    | .newLine _ blank =>
      let first := indent.getD blank
      readTokens (s.addNewLine first blank rest) (if hasLine rest then
        some first else indent) none rest
    | .openBrace => readTokens s.openRegion indent none rest
    | .closeBrace => readTokens s.closeRegion indent none rest
    | .command _ command =>
      let (s, left) := s.obey command (argumentOf rest)
      readTokens s indent (some left) rest
    | .other mark name =>
      let (s, left) := s.obeyCustom mark name (argumentOf rest)
      readTokens s indent (some left) rest

def addSource (comment : Bytes) : Reading :=
  s.modifyBlock fun b =>
    { b with
      source :=
        if b.source.isEmpty then comment
        else b.source ++ Byte.lineFeed :: comment }

def readText (comment : Bytes) : Reading :=
  if comment.isBlank then s.addEmptyLine
  else (s.addLine []).readTokens none none (CommentToken.tokenize comment)

end Reading

namespace CommentReader

variable (r : CommentReader)

def startBack (file : Bytes) (pos : Pos) (item : ItemId) : Reading :=
  let (block, catalog) := r.catalog.itemBlock item
  let catalog := catalog.modifyBlock block fun b =>
    if b.file.isEmpty then { b with file, pos } else b
  ⟨{ r with catalog }, file, pos, ⟨block, .detailed, none⟩⟩

/-- A waiting block that is about to be replaced is worth a remark if something
was lost. -/
def noteDropped : CommentReader :=
  match r.pending.bind r.catalog.docs.block? with
  | some b =>
    if b.hasTarget || b.isEmpty then r
    else r.mapCatalog (·.note (.droppedBlock b.file b.pos.line))
  | none => r

/-- Starts a comment with a block of its own, which waits for a declaration. -/
def startNew (file : Bytes) (pos : Pos) : Reading :=
  let (block, catalog) := r.noteDropped.catalog.newBlock file pos
  ⟨{ r with catalog, pending := some block }, file, pos, ⟨block, .detailed, none⟩⟩

def readBack (comment file : Bytes) (pos : Pos) (item : ItemId) : CommentReader :=
  (((r.startBack file pos item).addSource comment).readText comment).reader

/-- Reads a comment.  If it can continue the one before, it goes on writing
where that one stopped. -/
def readAhead (comment file : Bytes) (pos : Pos) (continues : Bool) :
    CommentReader :=
  let start : Reading := match if continues then r.resume else none with
    | some place => ⟨r, file, pos, place⟩
    | none => r.startNew file pos
  let done := (start.addSource comment).readText comment
  { done.reader with resume := some done.place }

end CommentReader

end LuaGloss

import LuaGloss.Files.Tree
import LuaGloss.Item.Tree
import LuaGloss.Page.Member

/-!
# The press

The press puts pages together and writes them.  A page is written as soon as it
is complete; if that fails, everything stops there, and what was done before
stays.
-/

namespace LuaGloss

inductive PressError where
  | directory (path : Bytes) (cause : FileError)
  | page (path : Bytes) (cause : FileError)
  | index (path : Bytes) (cause : FileError)
  deriving DecidableEq, Repr

def PressError.text : PressError → Bytes
  | .directory path cause =>
    utf8 "failed to create output directory " ++ path ++ utf8 ": " ++ cause.text
  | .page path cause =>
    utf8 "failed to write compound file " ++ path ++ utf8 ": " ++ cause.text
  | .index path cause =>
    utf8 "failed to write index file " ++ path ++ utf8 ": " ++ cause.text

/-- A page: the reference id that it is written under, and its lines. -/
structure Page where
  refId : Bytes
  content : List Xml

structure Press where
  catalog : Catalog
  tree : FileTree
  /-- The entries of the index so far. -/
  index : List Xml
  /-- The pages that have been written, in their order. -/
  pages : List Page

abbrev PressM := EStateM PressError Press

namespace Page

open LuaGloss.Xml

def document (root : String) (content : List Xml) : Bytes :=
  utf8 "<?xml version='1.0' encoding='UTF-8' standalone='no'?>\n" ++
    renderAll (block root [] content)

def pagePath (directory refId : Bytes) : Bytes :=
  Path.join directory (refId ++ utf8 ".xml")

end Page

namespace Press

open LuaGloss.Xml LuaGloss.Page

def onCatalog (action : CatalogM α) : PressM α := modifyGet fun p =>
  let (a, catalog) := action.run p.catalog
  (a, { p with catalog })

def addToIndex (entries : List Xml) : PressM Unit :=
  modify fun p => { p with index := p.index ++ entries }

def writePage (directory refId : Bytes) (content : List Xml) : PressM Unit := do
  let path := pagePath directory refId
  match (← get).tree.write path (document "doxygen" content) with
  | .ok tree =>
    modify fun p => { p with tree, pages := p.pages ++ [⟨refId, content⟩] }
  | .error cause => throw (.page path cause)

/-- The entry of a compound in the index, with the entries of its members. -/
def indexCompound (kind : String) (refId name : Bytes) (entries : List Xml) :
    List Xml :=
  [.element (utf8 "compound") [attr "kind" (utf8 kind), attr "refid" refId]
    (.element (utf8 "name") [] [.text name] :: entries), lineBreak]

def compound (c : Catalog) (kind : String) (refId name : Bytes)
    (content : List Xml) : List Xml :=
  block "compounddef" [attr "kind" (utf8 kind), attr "id" refId,
    attr "language" c.docs.language]
    (line "compoundname" [] name ++ content)

def compoundKind : VariableKind → String
  | .class_ => "class"
  | .module_ => "namespace"
  | .struct | .normal | .enum => "struct"

def baseReference (id : ItemId) (item : Item) (base : Bytes) :
    CatalogM (List Xml) := do
  let c ← get
  let attrs := [attr "prot" (utf8 "public"), attr "virt" (utf8 "non-virtual")]
  match (c.declarations.find base).filter c.isRendered with
  | some target =>
    return line "basecompoundref"
      (attr "refid" (← itemRefIdOf target) :: attrs) base
  | none =>
    set (c.warn item.file item.pos
      (.unresolvedBaseType (c.declarations.qualifiedName id) base))
    return line "basecompoundref" attrs base

def baseReferences (id : ItemId) (item : Item) : CatalogM (List Xml) := do
  let base := (← get).baseTypeOf id
  if base.isEmpty then return [] else baseReference id item base

/-- Completes and writes the page of a compound, given what its fields put into
it. -/
def finishCompound (directory : Bytes) (id : ItemId) (item : Item)
    (kind : VariableKind) (own : BlockId) (refId : Bytes) (parts : Parts) :
    PressM Unit := do
  let notes ← onCatalog (footnotes own)
  let base ← onCatalog (baseReferences id item)
  let text ← onCatalog (description own)
  let c := (← get).catalog
  let name := c.declarations.qualifiedName id
  addToIndex
    (indexCompound (compoundKind kind) refId name (lineBreak :: parts.index))
  writePage directory refId <| compound c (compoundKind kind) refId name <|
    base ++ parts.inner ++ Parts.memberSection (parts.members ++ notes) ++
      imports c own ++ text ++ location item

mutual

/-- Shows an item under its full name or under its own name.  Compounds get a
page, to which a reference is left. -/
def showItem (directory : Bytes) (isQualified : Bool) : ItemTree → PressM Parts
  | .node id fields => do
    let c := (← get).catalog
    match c.item? id with
    | none => return .empty
    | some item =>
      let name :=
        if isQualified then c.declarations.qualifiedName id else item.name
      let own ← onCatalog (itemBlockOf id)
      match item.init?, c.kindOf id, item.signature? with
      | some _, .enum, _ =>
        onCatalog (enumParts item
          (fields.map fun | .node field _ => field) name own)
      | some init, .normal, none =>
        let parts ← onCatalog (variableParts item init name own)
        return parts ++ (← showItems directory true fields)
      | _, .normal, some signature =>
        onCatalog (functionParts item signature name own)
      | some _, kind, _ =>
        let refId ← onCatalog (refIdOf own)
        let parts ← showItems directory false fields
        finishCompound directory id item kind own refId parts
        return ⟨leafLine (c.innerElement id) [attr "refid" refId], [], []⟩
      | none, _, _ => return .empty

def showItems (directory : Bytes) (isQualified : Bool) :
    List ItemTree → PressM Parts
  | [] => return .empty
  | tree :: trees => do
    let first ← showItem directory isQualified tree
    return first ++ (← showItems directory isQualified trees)

end

variable (directory : Bytes)

/-- Writes the pages of all items.  What has no page of its own goes into the
page of global members. -/
def writeItems : PressM Unit := do
  let c := (← get).catalog
  let parts ← showItems directory true (c.declarations.forest c.isRendered)
  addToIndex
    (indexCompound "file" Docs.globalId Docs.globalId (lineBreak :: parts.index))
  let c := (← get).catalog
  writePage directory Docs.globalId <|
    compound c "file" Docs.globalId Docs.globalId
      (parts.inner ++ Parts.memberSection parts.members)

/-- The reference from a group to one of its items: to its page, or to its place
among the members. -/
def groupItem (id : ItemId) : CatalogM (List Xml × List Xml) := do
  let element := (← get).innerElement id
  let refId ← itemRefIdOf id
  if element.isEmpty then
    return ([], leafLine (utf8 "memberdef") [attr "id" refId])
  else return (leafLine element [attr "refid" refId], [])

def innerGroup (id : GroupId) : CatalogM (List Xml) := do
  match (← get).docs.group? id with
  | none => return []
  | some group =>
    return leafLine (utf8 "innergroup") [attr "refid" (← refIdOf group.block)]

def groupPage (group : Group) (refId : Bytes) : CatalogM (List Xml) := do
  let items ← group.items.mapM groupItem
  let notes ← footnotes group.block
  let inner ← group.groups.mapM innerGroup
  let text ← description group.block
  let c ← get
  let title := ((c.docs.block? group.block).map (·.title)).getD []
  return compound c "group" refId group.name <|
    line "title" [] (if title.isEmpty then group.name else title) ++
      items.flatMap Prod.fst
      ++ Parts.memberSection (items.flatMap Prod.snd ++ notes) ++
        inner.flatten ++ imports c group.block ++ text

def writeGroup (id : GroupId) : PressM Unit := do
  match (← get).catalog.docs.group? id with
  | none => return
  | some group =>
    let refId ← onCatalog (refIdOf group.block)
    addToIndex (indexCompound "group" refId group.name [])
    writePage directory refId (← onCatalog (groupPage group refId))

def writeGroups : PressM Unit := do
  for id in (← get).catalog.docs.listedGroups do
    writeGroup directory id

def makeDirectory : PressM Unit := do
  match (← get).tree.makeDirectories directory with
  | .ok tree => modify fun p => { p with tree }
  | .error cause => throw (.directory directory cause)

def writeIndex (directory name : Bytes) : PressM Unit := do
  let path := Path.join directory name
  let p ← get
  match p.tree.write path (document "doxygenindex" p.index) with
  | .ok tree => set { p with tree }
  | .error cause => throw (.index path cause)

/-- Brings the documentation to its final state and writes all pages and the
index. -/
def writeAll (directory name : Bytes) : PressM Unit := do
  makeDirectory directory
  modify fun p => { p with catalog := p.catalog.finalize }
  writeItems directory
  writeGroups directory
  writeIndex directory name

end Press

namespace Catalog

/-- Writes the documentation into a directory; the error, if there is one, and
what the press holds afterwards. -/
def press (c : Catalog) (tree : FileTree) (directory name : Bytes) :
    EStateM.Result PressError Press Unit :=
  (Press.writeAll directory name).run ⟨c, tree, [], []⟩

/-- Writes the documentation into a directory; the error, if there is one, and
what is there afterwards. -/
def publish (c : Catalog) (tree : FileTree) (directory name : Bytes) :
    Option PressError × Catalog × FileTree :=
  match c.press tree directory name with
  | .ok _ p => (none, p.catalog, p.tree)
  | .error e p => (some e, p.catalog, p.tree)

end Catalog

end LuaGloss

import LuaGloss.Page.Press

/-!
# Pages as views of the catalog

While pages are put together, blocks are made and reference ids are given out.
A view says what a part of a page looks like once that has been done: it reads
the ids in the catalog and changes nothing.
-/

namespace LuaGloss

namespace Catalog

def givenId (c : Catalog) (block : BlockId) : Bytes :=
  ((c.docs.block? block).bind (·.refId)).getD []

def blockNumber (c : Catalog) (item : ItemId) : BlockId :=
  (c.docs.blockOf? item).getD 0

def givenItemId (c : Catalog) (item : ItemId) : Bytes :=
  c.givenId (c.blockNumber item)

end Catalog

/-- Lines of the index, and pages. -/
structure Sheets where
  index : List Xml
  pages : List Page

namespace Sheets

def empty : Sheets := ⟨[], []⟩

def append (s t : Sheets) : Sheets := ⟨s.index ++ t.index, s.pages ++ t.pages⟩

instance : Append Sheets := ⟨append⟩

@[simp] theorem index_append (s t : Sheets) :
    (s ++ t).index = s.index ++ t.index := rfl

@[simp] theorem pages_append (s t : Sheets) :
    (s ++ t).pages = s.pages ++ t.pages := rfl

@[simp] theorem empty_append (s : Sheets) : empty ++ s = s := rfl

@[simp] theorem append_empty (s : Sheets) : s ++ empty = s := by
  change (⟨s.index ++ [], s.pages ++ []⟩ : Sheets) = s
  rw [List.append_nil, List.append_nil]

end Sheets

namespace View

open LuaGloss.Xml LuaGloss.Page LuaGloss.Press

variable (c : Catalog)

/-! ## Descriptions -/

def seeAlso (see : SeeAlso) : Xml :=
  match see.item.filter c.isRendered with
  | none => .text see.name
  | some item =>
    let kind :=
      if (c.innerElement item).isEmpty then utf8 "member" else utf8 "compound"
    .element (utf8 "ref") [attr "refid" (c.givenItemId item),
      attr "kindref" kind] [.text see.name]

def references (seeAlsos : List SeeAlso) : List Xml :=
  if seeAlsos.isEmpty then []
  else
    let names := (seeAlsos.map (seeAlso c)).intersperse (.text (utf8 ", "))
    let section_ :=
      Xml.element (utf8 "simplesect") [attr "kind" (utf8 "see")]
        [.element (utf8 "para") [] names]
    [.element (utf8 "para") [] [section_], lineBreak]

def description (id : BlockId) : List Xml :=
  match c.docs.block? id with
  | none => []
  | some b =>
    block "briefdescription" [] (paragraphElements b.brief)
      ++ block "detaileddescription" [] (paragraphElements b.detailed ++
        references c b.seeAlso)

def footnote (id : BlockId) : List Xml :=
  block "memberdef" [attr "kind" (utf8 "footnote"), attr "id" (c.givenId id)]
    (line "name" [] (c.givenId id) ++ description c id)

def footnotes (id : BlockId) : List Xml :=
  match c.docs.block? id with
  | none => []
  | some b => b.footnotes.flatMap (footnote c)

/-! ## Members -/

def functionParts (item : Item) (signature : Signature) (name : Bytes)
    (id : BlockId) : Parts :=
  let content :=
    line "argsstring" [] signature.argsText ++ parameters signature ++
      description c id
  ⟨[], definition "function" (c.givenId id) item name content ++ footnotes c id,
    indexEntry "function" (c.givenId id) name⟩

def variableParts (item : Item) (init : Value) (name : Bytes) (id : BlockId) :
    Parts :=
  ⟨[], definition "variable" (c.givenId id) item name (initializer init ++
    description c id) ++ footnotes c id,
    indexEntry "variable" (c.givenId id) name⟩

def enumValue (id : ItemId) : List Xml × List Xml :=
  match c.item? id with
  | none => ([], [])
  | some item =>
    let init := (item.init?.map initializer).getD []
    (block "enumvalue" [attr "id" (c.givenItemId id), attr "prot" (utf8 "public")]
        (line "name" [] item.name ++ init ++ description c (c.blockNumber id)),
      indexEntry "enumvalue" (c.givenItemId id) item.name)

def enumParts (item : Item) (fields : List ItemId) (name : Bytes) (id : BlockId) :
    Parts :=
  let values := fields.map (enumValue c)
  ⟨[], definition "enum" (c.givenId id) item name (values.flatMap Prod.fst ++
    description c id) ++ footnotes c id,
    indexEntry "enum" (c.givenId id) name ++ values.flatMap Prod.snd⟩

/-! ## Items -/

def baseReferences (id : ItemId) : List Xml :=
  let base := c.baseTypeOf id
  let attrs := [attr "prot" (utf8 "public"), attr "virt" (utf8 "non-virtual")]
  if base.isEmpty then []
  else
    match (c.declarations.find base).filter c.isRendered with
    | some target =>
      line "basecompoundref" (attr "refid" (c.givenItemId target) :: attrs) base
    | none => line "basecompoundref" attrs base

def compoundPage (id : ItemId) (item : Item) (kind : VariableKind)
    (own : BlockId) (parts : Parts) : Page :=
  ⟨c.givenId own,
    compound c (compoundKind kind) (c.givenId own)
      (c.declarations.qualifiedName id) <|
    baseReferences c id ++ parts.inner ++
      Parts.memberSection (parts.members ++ footnotes c own) ++ imports c own
      ++ description c own ++ location item⟩

/-- The entry and the page of a compound, given what its fields put into
them. -/
def compoundSheets (id : ItemId) (item : Item) (kind : VariableKind)
    (own : BlockId) (parts : Parts) : Sheets :=
  ⟨indexCompound (compoundKind kind) (c.givenId own)
    (c.declarations.qualifiedName id) (lineBreak :: parts.index),
    [compoundPage c id item kind own parts]⟩

mutual

def showItem (isQualified : Bool) : ItemTree → Parts × Sheets
  | .node id fields =>
    match c.item? id with
    | none => (.empty, .empty)
    | some item =>
      let name :=
        if isQualified then c.declarations.qualifiedName id else item.name
      let own := c.blockNumber id
      match item.init?, c.kindOf id, item.signature? with
      | some _, .enum, _ =>
        (enumParts c item (fields.map ItemTree.item) name own, .empty)
      | some init, .normal, none =>
        let (parts, sheets) := showItems true fields
        (variableParts c item init name own ++ parts, sheets)
      | _, .normal, some signature =>
        (functionParts c item signature name own, .empty)
      | some _, kind, _ =>
        let (parts, sheets) := showItems false fields
        (⟨leafLine (c.innerElement id) [attr "refid" (c.givenId own)], [], []⟩,
          sheets ++ compoundSheets c id item kind own parts)
      | none, _, _ => (.empty, .empty)

def showItems (isQualified : Bool) : List ItemTree → Parts × Sheets
  | [] => (.empty, .empty)
  | tree :: trees =>
    let (first, sheets) := showItem isQualified tree
    let (rest, sheets') := showItems isQualified trees
    (first ++ rest, sheets ++ sheets')

end

theorem showItem_compound {c : Catalog} {id : ItemId} {item : Item}
    {init : Value} (hitem : c.item? id = some item)
    (hinit : item.init? = some init) (hnotEnum : c.kindOf id ≠ .enum)
    (hnotNormal : c.kindOf id ≠ .normal) (isQualified : Bool)
    (fields : List ItemTree) :
    showItem c isQualified (.node id fields) =
      (⟨leafLine (c.innerElement id) [attr "refid" (c.givenItemId id)], [], []⟩,
        (showItems c false fields).2 ++
          compoundSheets c id item (c.kindOf id) (c.blockNumber id)
            (showItems c false fields).1) := by
  rw [showItem]
  simp only [hitem, hinit]
  cases hkind : c.kindOf id with
  | enum => exact (hnotEnum hkind).elim
  | normal => exact (hnotNormal hkind).elim
  | class_ => rfl
  | struct => rfl
  | module_ => rfl

/-- The entry and the page of the global members, given what the items put into
them. -/
def globalSheets (parts : Parts) : Sheets :=
  ⟨indexCompound "file" Docs.globalId Docs.globalId (lineBreak :: parts.index),
    [⟨Docs.globalId,
      compound c "file" Docs.globalId Docs.globalId
        (parts.inner ++ Parts.memberSection parts.members)⟩]⟩

def itemSheets : Sheets :=
  let (parts, sheets) := showItems c true (c.declarations.forest c.isRendered)
  sheets ++ globalSheets c parts

/-! ## Groups -/

def groupItem (id : ItemId) : List Xml × List Xml :=
  if (c.innerElement id).isEmpty then
    ([], leafLine (utf8 "memberdef") [attr "id" (c.givenItemId id)])
  else (leafLine (c.innerElement id) [attr "refid" (c.givenItemId id)], [])

def innerGroup (id : GroupId) : List Xml :=
  match c.docs.group? id with
  | none => []
  | some group =>
    leafLine (utf8 "innergroup") [attr "refid" (c.givenId group.block)]

def groupPage (group : Group) : List Xml :=
  let items := group.items.map (groupItem c)
  let title := ((c.docs.block? group.block).map (·.title)).getD []
  compound c "group" (c.givenId group.block) group.name <|
    line "title" [] (if title.isEmpty then group.name else title) ++
      items.flatMap Prod.fst
      ++ Parts.memberSection (items.flatMap Prod.snd ++ footnotes c group.block)
      ++ group.groups.flatMap (innerGroup c) ++ imports c group.block ++
        description c group.block

def groupSheets (id : GroupId) : Sheets :=
  match c.docs.group? id with
  | none => .empty
  | some group =>
    ⟨indexCompound "group" (c.givenId group.block) group.name [],
      [⟨c.givenId group.block, groupPage c group⟩]⟩

def groupsSheets : List GroupId → Sheets
  | [] => .empty
  | id :: ids => groupSheets c id ++ groupsSheets ids

def sheets : Sheets := itemSheets c ++ groupsSheets c c.docs.listedGroups

end View

end LuaGloss

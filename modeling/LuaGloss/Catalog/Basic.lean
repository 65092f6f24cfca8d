import LuaGloss.Docs.Basic
import LuaGloss.Item.Declarations
import LuaGloss.Vocabulary

/-!
# The catalog

What a run knows: the declarations of its sources and their documentation.  The
declarations never depend on the documentation; the documentation decides how a
declaration is shown, and whether it is shown at all.
-/

namespace LuaGloss

structure Catalog where
  vocabulary : Vocabulary
  declarations : Declarations
  docs : Docs

namespace Catalog

def empty (vocabulary : Vocabulary) : Catalog := ⟨vocabulary, .empty, .empty⟩

def item? (c : Catalog) (id : ItemId) : Option Item := c.declarations.item? id

def blockOf? (c : Catalog) (id : ItemId) : Option Block :=
  (c.docs.blockOf? id).bind c.docs.block?

variable (c : Catalog) (id : ItemId)

/-- The kind of a variable.  Only variables that hold a table and whose
documentation is tagged are anything but plain. -/
def kindOf : VariableKind :=
  match (c.item? id).bind (·.init?), c.blockOf? id with
  | some init, some block =>
    if init.isTable then c.vocabulary.classify block.tags else .normal
  | _, _ => .normal

/-- The name of the base type that the documentation gives, empty if it gives
none. -/
def baseTypeOf : Bytes :=
  match c.blockOf? id with
  | some block => c.vocabulary.baseType block.tags
  | none => []

/-- The element by which a page refers to an item with a page of its own; empty
for all other items. -/
def innerElement : Bytes :=
  match c.kindOf id with
  | .module_ => utf8 "innernamespace"
  | .struct | .class_ => utf8 "innerclass"
  | .normal | .enum => []

def isDocumentedOverload : Bool :=
  (c.blockOf? id).any fun b => b.hasTarget && !b.isEmpty

/-- Whether the first of a line of items is shown, where the others are its
owners. -/
def isLineRendered (c : Catalog) : List ItemId → Bool
  | [] => false
  | id :: owners =>
    match c.item? id with
    | none => false
    | some item =>
      (item.isPrimary || c.isDocumentedOverload id) &&
        (item.table?.isNone ||
          (!item.name.isEmpty && c.isLineRendered owners &&
            match owners with
            | [] => false
            | owner :: _ =>
              (c.item? owner).any (·.init?.isSome) &&
                (c.kindOf owner != .normal || (c.blockOf? id).any fun b =>
                  !b.isEmpty)))

/-- Whether an item appears in the documentation.  Later declarations of a name
do only if they are documented by number; entries of plain tables do only if
they are documented. -/
def isRendered : Bool := c.isLineRendered (c.declarations.lineage id)

def variableIdPrefix (init : Value) : Bytes :=
  match c.kindOf id with
  | .enum => utf8 "enum_"
  | .struct => utf8 "struct_"
  | .class_ => utf8 "class_"
  | .module_ => utf8 "namespace_"
  | .normal => if init.isFunction then utf8 "function_" else utf8 "variable_"

def itemIdPrefix (item : Item) : Bytes :=
  match item.shape with
  | .function _ => utf8 "function_"
  | .variable_ init => c.variableIdPrefix id init
  | .field _ init _ =>
    match c.declarations.ownerOf? item with
    | some owner =>
      if c.kindOf owner = .enum then utf8 "enumvalue_"
        else c.variableIdPrefix id init
    | none => c.variableIdPrefix id init

def wantedId : Bytes :=
  match c.item? id with
  | some item =>
    c.itemIdPrefix id item ++ Xml.idText (c.declarations.qualifiedName id)
  | none => []

def mapDocs (f : Docs → Docs) : Catalog := { c with docs := f c.docs }

def modifyBlock (c : Catalog) (id : BlockId) (f : Block → Block) : Catalog :=
  c.mapDocs (·.modifyBlock id f)

def warn (c : Catalog) (file : Bytes) (pos : Pos) (what : Warning) : Catalog :=
  c.mapDocs (·.warn file pos what)

def note (c : Catalog) (notice : Notice) : Catalog := c.mapDocs (·.note notice)

def attach (c : Catalog) (item : ItemId) (block : BlockId) : Catalog :=
  c.mapDocs (·.attach item block)

def newBlock (file : Bytes) (pos : Pos) : BlockId × Catalog :=
  (c.docs.blocks.size, c.mapDocs (·.addBlock file pos))

def itemBlock (item : ItemId) : BlockId × Catalog :=
  match c.docs.blockOf? item with
  | some block => (block, c)
  | none =>
    let (file, pos) :=
      ((c.item? item).map fun i => (i.file, i.pos)).getD ([], .none)
    let (block, c) := c.newBlock file pos
    (block, c.attach item block)

def newTable (owner : Option ItemId) : TableId × Catalog :=
  (c.declarations.tables.size,
    { c with declarations := c.declarations.addTable owner })

/-- Records a declaration.  A name that is declared again is worth a remark. -/
def addItem (item : Item) : ItemId × Catalog :=
  let id := c.declarations.items.size
  let added := { c with declarations := c.declarations.add item }
  (id,
    if c.declarations.isTaken item then
      added.note (.redeclaration item.name item.file item.pos.line) else added)

def modifyItem (c : Catalog) (id : ItemId) (f : Item → Item) : Catalog :=
  { c with declarations := c.declarations.modifyItem id f }

/-- The reference id that a block asks for, where `parent` is the one of the
block that it is a footnote of. -/
def blockIdWanted (block : Block) (parent : Option Bytes) : Bytes :=
  match block.kind, parent with
  | .group group, _ =>
    utf8 "group_" ++ Xml.idText (((c.docs.group? group).map (·.name)).getD [])
  | .footnote _, some parent => parent ++ utf8 "_footnote"
  | _, _ => (block.item.map c.wantedId).getD (utf8 "block")

def giveRefId (id : BlockId) (wanted : Bytes) : Bytes × Catalog :=
  let (refId, docs) := c.docs.freshId wanted
  (refId,
    { c with docs := docs.modifyBlock id fun b => { b with refId := some refId } })

/-- The reference id of the first of a line of footnotes, which is given out if
it has none yet. -/
def lineRefId (c : Catalog) : List BlockId → Bytes × Catalog
  | [] => ([], c)
  | id :: parents =>
    match c.docs.block? id with
    | none => ([], c)
    | some block =>
      match block.refId with
      | some refId => (refId, c)
      | none =>
        if parents.isEmpty then c.giveRefId id (c.blockIdWanted block none)
        else
          let (parent, c) := lineRefId c parents
          c.giveRefId id (c.blockIdWanted block (some parent))

/-- The reference id of a block, which is given out when it is first asked
for. -/
def refId (block : BlockId) : Bytes × Catalog :=
  c.lineRefId (c.docs.footnoteLine block)

def itemRefId (item : ItemId) : Bytes × Catalog :=
  let (block, c) := c.itemBlock item
  c.refId block

end Catalog

end LuaGloss

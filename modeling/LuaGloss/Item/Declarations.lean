import LuaGloss.Item.Basic

/-!
# Declarations

All items and tables of a run in the order of their declarations, and the names
by which they are found.  The first declaration of a name wins; later ones are
found by their number.

A dotted name leads through the fields of tables, and a variable that is
initialized with another name leads to what that name means.  Such references
are followed a few steps at a time.
-/

namespace LuaGloss

structure Table where
  /-- The variable or field that the table was built for. -/
  owner : Option ItemId
  /-- The entries in the order of their declarations. -/
  fields : List ItemId
  deriving DecidableEq, Repr

/-- A source text that was read. -/
structure SourceText where
  file : Bytes
  text : Bytes
  deriving DecidableEq, Repr

structure Declarations where
  items : Array Item
  tables : Array Table
  /-- The first declaration of each global name. -/
  globals : List (Bytes × ItemId)
  /-- The first declaration of each local name. -/
  locals : List (Bytes × ItemId)
  /-- Every declaration under the full name that it has. -/
  named : List (Bytes × ItemId)
  sources : Array SourceText
  deriving DecidableEq, Repr

namespace Declarations

def empty : Declarations := ⟨#[], #[], [], [], [], #[]⟩

variable (d : Declarations) (item : Item)

def item? (id : ItemId) : Option Item := d.items[id]?

def table? (id : TableId) : Option Table := d.tables[id]?

def addSource (source : SourceText) : Declarations :=
  { d with sources := d.sources.push source }

def addTable (owner : Option ItemId) : Declarations :=
  { d with tables := d.tables.push ⟨owner, []⟩ }

def ownerOf? : Option ItemId :=
  match item.table? with
  | some table => (d.table? table).bind (·.owner)
  | none => none

/-- An item, the owner of its table, the owner of that one's table, and so on.
Owners are declared before the entries of their tables. -/
def lineage (d : Declarations) (id : ItemId) : List ItemId :=
  match d.item? id with
  | none => []
  | some item =>
    match d.ownerOf? item with
    | none => [id]
    | some owner => if owner < id then id :: lineage d owner else [id]
termination_by id

def joinName (owner : Option Bytes) (item : Item) : Bytes :=
  match owner with
  | none => item.name
  | some owner =>
    owner ++ (if item.isMethod then utf8 ":" else utf8 ".") ++ item.name

def lineName (d : Declarations) : List ItemId → Bytes
  | [] => []
  | [id] => ((d.item? id).map (joinName none)).getD []
  | id :: owners =>
    ((d.item? id).map (joinName (some (lineName d owners)))).getD []

def qualifiedName (id : ItemId) : Bytes := d.lineName (d.lineage id)

def normalize (name : Bytes) : Bytes :=
  name.map fun b => if b = Byte.colon then Byte.dot else b

/-- The full name that an item is going to have, if it has a name and its table,
if any, has an owner. -/
def fullName? : Option Bytes :=
  if item.name.isEmpty then none
  else
    match item.table?, d.ownerOf? item with
    | none, _ => some (normalize item.name)
    | some _, none => none
    | some _, some owner =>
      some (normalize (joinName (some (d.qualifiedName owner)) item))

def overloads (name : Bytes) : List ItemId :=
  (d.named.filter (·.1 == normalize name)).map Prod.snd

def register (names : List (Bytes × ItemId)) (name : Bytes) (id : ItemId) :
    List (Bytes × ItemId) :=
  if (names.lookup name).isSome then names else names ++ [(name, id)]

/-- Whether a name at the top level has been declared before with the same
locality. -/
def isTaken : Bool :=
  item.table?.isNone && !item.name.isEmpty &&
    ((if item.isLocal then d.locals else d.globals).lookup item.name).isSome

def addField (tables : Array Table) (item : Item) (id : ItemId) : Array Table :=
  match item.table? with
  | some table =>
    tables.modify table fun t => { t with fields := t.fields ++ [id] }
  | none => tables

def add : Declarations :=
  let id := d.items.size
  let name := d.fullName? item
  let isPrimary := match name with
    | some name => (d.overloads name).isEmpty
    | none => true
  let named := match name with
    | some name => d.named ++ [(name, id)]
    | none => d.named
  let isTop := item.table?.isNone && !item.name.isEmpty
  { d with
    items := d.items.push { item with isPrimary }
    tables := addField d.tables item id
    named
    globals :=
      if isTop && !item.isLocal then register d.globals item.name id else d.globals
    locals :=
      if isTop && item.isLocal then register d.locals item.name id else d.locals }

def modifyItem (id : ItemId) (f : Item → Item) : Declarations :=
  { d with items := d.items.modify id f }

def lookup (d : Declarations) (name : Bytes) : Option ItemId :=
  (d.globals.lookup name).or (d.locals.lookup name)

def findField (table : TableId) (name : Bytes) : Option ItemId :=
  if name.isEmpty then none
  else (d.table? table).bind fun t => t.fields.find? fun id =>
    (d.item? id).any (·.name == name)

/-- Follows a path of field names from an item, where `tableOf` gives the table
that an item holds. -/
def memberBy (d : Declarations) (tableOf : ItemId → Option TableId) :
    ItemId → List Bytes → Option ItemId
  | id, [] => some id
  | id, name :: path =>
    match (tableOf id).bind (d.findField · name) with
    | some field => memberBy d tableOf field path
    | none => none

/-- Finds what a dotted name means, where `tableOf` gives the table that an item
holds. -/
def findBy (tableOf : ItemId → Option TableId) (name : Bytes) : Option ItemId :=
  match Bytes.splitOn Byte.dot (normalize name) with
  | [] => none
  | first :: path => (d.lookup first).bind (d.memberBy tableOf · path)

/-- The greatest number of references in a row that lead from a variable to a
table. -/
def aliasLimit : Nat := 8

/-- The table that an item holds, itself or through at most `steps`
references. -/
def followAliases (d : Declarations) (find : Bytes → Option ItemId) :
    (steps : Nat) → ItemId → Option TableId
  | 0, _ => none
  | steps + 1, id =>
    match (d.item? id).bind (·.init?) with
    | none => none
    | some init =>
      match init.shape with
      | .table table => table
      | .reference =>
        match find init.ref with
        | some next => followAliases d find steps next
        | none => none
      | .empty | .expression | .constant | .function _ => none

/-- The table that an item holds, where dotted references nest at most `depth`
deep. -/
def tableWithin (d : Declarations) : (depth : Nat) → ItemId → Option TableId
  | 0, _ => none
  | depth + 1, id => d.followAliases (d.findBy (tableWithin d depth)) aliasLimit id

/-- The table that an item holds.  Dotted references of which none leads back to
itself nest no deeper than there are items. -/
def tableOf (id : ItemId) : Option TableId := d.tableWithin (d.items.size + 1) id

def findMember (id : ItemId) (path : List Bytes) : Option ItemId :=
  d.memberBy d.tableOf id path

def find (name : Bytes) : Option ItemId := d.findBy d.tableOf name

/-- The declaration of a name with the given number; number zero is what the
name means. -/
def findOverload (name : Bytes) (index : Int) : Option ItemId :=
  match index with
  | .ofNat 0 => d.find name
  | .ofNat n => (d.overloads name)[n]?
  | .negSucc _ => none

end Declarations

end LuaGloss

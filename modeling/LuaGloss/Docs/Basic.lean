import LuaGloss.Docs.Block
import LuaGloss.Docs.Notice
import LuaGloss.Xml.Basic

/-!
# The documentation of a run

Everything that comments have contributed so far: blocks, groups, footnotes, the
names that are still to be looked up, the reference ids that have been given
out, and the notices.

Blocks and groups are kept for good under their numbers, also when a run is
cleared or a group is deleted, because other things may still refer to them.
What belongs to the current run is listed separately.
-/

namespace LuaGloss

structure Docs where
  /-- Written to every compound. -/
  language : Bytes
  blocks : Array Block
  groups : Array Group
  /-- The blocks of the current run that are neither a group's nor a
  footnote. -/
  listedBlocks : List BlockId
  listedGroups : List GroupId
  footnotes : List BlockId
  /-- The block that documents an item. -/
  attached : List (ItemId × BlockId)
  /-- The reference ids in use, each with the suffix that was given out for it
  last. -/
  usedIds : List (Bytes × Nat)
  queue : List Reference
  unresolved : List Reference
  warnings : Nat
  isFinal : Bool
  notices : Array Notice
  deriving DecidableEq, Repr

namespace Docs

/-- The id of the page that holds all members without a compound of their
own. -/
def globalId : Bytes := utf8 "global"

def empty : Docs :=
  ⟨utf8 "Lua", #[], #[], [], [], [], [], [(globalId, 1)], [], [], 0, false, #[]⟩

variable (d : Docs) (name : Bytes)

def clear : Docs :=
  { empty with
    language := d.language
    blocks := d.blocks
    groups := d.groups
    attached := d.attached
    notices := d.notices }

def note (notice : Notice) : Docs := { d with notices := d.notices.push notice }

def warn (file : Bytes) (pos : Pos) (what : Warning) : Docs :=
  { d.note (.warning file pos what) with warnings := d.warnings + 1 }

def block? (id : BlockId) : Option Block := d.blocks[id]?

def modifyBlock (id : BlockId) (f : Block → Block) : Docs :=
  { d with blocks := d.blocks.modify id f }

def group? (id : GroupId) : Option Group := d.groups[id]?

def modifyGroup (id : GroupId) (f : Group → Group) : Docs :=
  { d with groups := d.groups.modify id f }

/-- A new block for a comment; its number is the number of blocks before it. -/
def addBlock (file : Bytes) (pos : Pos) : Docs :=
  { d with
    blocks := d.blocks.push { kind := .normal, file, pos }
    listedBlocks := d.listedBlocks ++ [d.blocks.size] }

/-- A new footnote of a block, at the same place; its number is the number of
blocks before it. -/
def addFootnote (parent : BlockId) : Docs :=
  match d.block? parent with
  | none => d
  | some b =>
    let id := d.blocks.size
    { d with
      blocks :=
        (d.blocks.modify parent fun b =>
          { b with footnotes := b.footnotes ++ [id] }).push
        { kind := .footnote parent, file := b.file, pos := b.pos }
      footnotes := d.footnotes ++ [id] }

def findGroup? : Option GroupId :=
  d.listedGroups.find? fun id => (d.group? id).any (·.name == name)

def getGroup : GroupId × Docs :=
  match d.findGroup? name with
  | some id => (id, d)
  | none =>
    let id := d.groups.size
    (id,
      { d with
        blocks := d.blocks.push { kind := .group id, file := [], pos := .none }
        groups := d.groups.push { name, block := d.blocks.size }
        listedGroups := d.listedGroups ++ [id] })

def blockOf? (item : ItemId) : Option BlockId := d.attached.lookup item

def attach (item : ItemId) (block : BlockId) : Docs :=
  { d.modifyBlock block (fun b => { b with item := some item }) with
    attached := (item, block) :: d.attached.filter (·.1 != item) }

def numberedId (n : Nat) : Bytes := name ++ utf8 "_" ++ Bytes.ofNat n

def isUsed (used : List (Bytes × Nat)) (name : Bytes) : Bool :=
  (used.lookup name).isSome

/-- The first number from `start` on under which the name is free.  Among one
more numbers than there are ids in use one is free. -/
def firstFree (used : List (Bytes × Nat)) (name : Bytes) (start : Nat) : Nat :=
  ((List.range' start (used.length + 1)).find? fun n =>
    !isUsed used (numberedId name n)).getD start

/-- A reference id that is not in use: the name itself or the name with the
first free number from two on. -/
def freshId : Bytes × Docs :=
  match d.usedIds.lookup name with
  | none => (name, { d with usedIds := (name, 1) :: d.usedIds })
  | some count =>
    let n := firstFree d.usedIds name (count + 1)
    let id := numberedId name n
    (id,
      { d with usedIds := (id, 1) :: (name, n) :: d.usedIds.filter (·.1 != name) })

/-- A block, the block it is a footnote of, and so on.  A footnote is made after
its block. -/
def footnoteLine (d : Docs) (id : BlockId) : List BlockId :=
  match d.block? id with
  | some { kind := .footnote parent, .. } =>
    if parent < id then id :: footnoteLine d parent else [id]
  | some _ => [id]
  | none => []
termination_by id

end Docs

end LuaGloss

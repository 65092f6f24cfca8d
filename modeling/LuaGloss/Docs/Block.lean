import LuaGloss.Item.Basic
import LuaGloss.Text.Blank
import LuaGloss.Comment.Token

/-!
# Documentation blocks

A block holds what one or more comments say about one thing: a declared item, a
group, or the text of a footnote.  Blocks, groups and items refer to each other
by number.
-/

namespace LuaGloss

abbrev BlockId := Nat

abbrev GroupId := Nat

inductive BlockKind where
  | normal
  /-- The block that documents a group. -/
  | group (id : GroupId)
  | footnote (parent : BlockId)
  deriving DecidableEq, Repr

/-- A name in a list of references, and the item that it was found to mean. -/
structure SeeAlso where
  name : Bytes
  item : Option ItemId
  deriving DecidableEq, Repr

structure Block where
  kind : BlockKind
  file : Bytes
  pos : Pos
  /-- The text of all comments that went into the block. -/
  source : Bytes := []
  title : Bytes := []
  brief : Bytes := []
  detailed : Bytes := []
  /-- The tags that custom commands left. -/
  tags : Bytes := []
  seeAlso : List SeeAlso := []
  imports : List Bytes := []
  footnotes : List BlockId := []
  /-- The group that the documented thing belongs to. -/
  group : Option GroupId := none
  item : Option ItemId := none
  /-- Whether a command in the block names the item that it documents. -/
  hasTarget : Bool := false
  /-- The reference id, once it has been given out. -/
  refId : Option Bytes := none
  deriving DecidableEq, Repr

namespace Block

def isDescriptionEmpty (b : Block) : Bool :=
  b.brief.isBlank && b.detailed.isBlank && b.seeAlso.isEmpty

def isEmpty (b : Block) : Bool :=
  b.isDescriptionEmpty && b.title.isEmpty && b.tags.isEmpty &&
    b.imports.isEmpty && b.footnotes.isEmpty
    && b.group.isNone

end Block

/-- A named collection of documented items, which may lie in another group. -/
structure Group where
  name : Bytes
  /-- The group's own documentation. -/
  block : BlockId
  items : List ItemId := []
  groups : List GroupId := []
  /-- The group that it was put into. -/
  parent : Option GroupId := none
  isDeleted : Bool := false
  deriving DecidableEq, Repr

def Group.isEmpty (g : Group) : Bool := g.items.isEmpty && g.groups.isEmpty

/-- A name in a comment that is still to be looked up: the name of the item that
a block documents, or an entry of its references. -/
structure Reference where
  block : BlockId
  command : Command
  name : Bytes
  overload : Int
  /-- The place in the list of references, if it is one of them. -/
  entry : Option Nat
  deriving DecidableEq, Repr

end LuaGloss

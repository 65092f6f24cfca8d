import LuaGloss.Catalog.Reference

/-!
# Groups

Before anything is rendered, items are put into the groups that their
documentation asks for, groups are put into each other, and groups in which
nothing was put are deleted.
-/

namespace LuaGloss

namespace Docs

/-- Whether a group lies on the way from another up through at most `steps`
parents, the other included. -/
def isAncestor (d : Docs) (group : GroupId) : (steps : Nat) → GroupId → Bool
  | 0, _ => false
  | steps + 1, other =>
    other == group || ((d.group? other).bind (·.parent)).any
      (isAncestor d group steps)

def addGroupItem (d : Docs) (group : GroupId) (item : ItemId) : Docs :=
  d.modifyGroup group fun g => if g.items.contains item then
    g else { g with items := g.items ++ [item] }

/-- Puts a group into the one that it asks for, unless it lies in one already or
would come to lie in itself. -/
def linkGroup (d : Docs) (id : GroupId) : Docs :=
  match d.group? id with
  | none => d
  | some group =>
    match d.block? group.block with
    | none => d
    | some block =>
      match block.group, group.parent with
      | some parent, none =>
        if d.isAncestor id d.groups.size parent then
          d.warn block.file block.pos
            (.groupCycle group.name (((d.group? parent).map (·.name)).getD []))
        else
          (d.modifyGroup id fun g =>
            { g with parent := some parent }).modifyGroup parent fun g =>
            { g with groups := g.groups ++ [id] }
      | _, _ => d

/-- Deletes the groups below a group in which there is nothing, and the group
itself if nothing is left in it.  Groups nest at most `depth` deep. -/
def pruneGroup : (depth : Nat) → Docs → GroupId → Docs
  | 0, d, _ => d
  | depth + 1, d, id =>
    match d.group? id with
    | none => d
    | some group =>
      let d := group.groups.foldl (pruneGroup depth) d
      let kept :=
        group.groups.filter fun child => !(d.group? child).any (·.isDeleted)
      let d := d.modifyGroup id fun g => { g with groups := kept }
      if group.items.isEmpty && kept.isEmpty then
        (d.note (.deletedGroup group.name)).modifyGroup id fun g =>
          { g with isDeleted := true }
      else d

def pruneGroups (d : Docs) : Docs :=
  let roots := d.listedGroups.filter fun id => (d.group? id).any (·.parent.isNone)
  let d := roots.foldl (pruneGroup (d.groups.size + 1)) d
  { d with
    listedGroups := d.listedGroups.filter fun id =>
      !(d.group? id).any (·.isDeleted) }

end Docs

namespace Catalog

/-- Puts the item of a block into the block's group, if the item is shown. -/
def assignBlock (c : Catalog) (docs : Docs) (id : BlockId) : Docs :=
  match docs.block? id with
  | some block =>
    match block.group, block.item with
    | some group, some item =>
      if c.isRendered item then docs.addGroupItem group item else docs
    | _, _ => docs
  | none => docs

def assignGroups (c : Catalog) : Catalog :=
  let docs := c.docs.listedBlocks.foldl c.assignBlock c.docs
  { c with docs := docs.listedGroups.foldl Docs.linkGroup docs }

def finalize (c : Catalog) : Catalog :=
  if c.docs.isFinal then c
  else ((c.mapDocs fun d =>
    { d with isFinal := true }).resolve.assignGroups).mapDocs Docs.pruneGroups

end Catalog

end LuaGloss

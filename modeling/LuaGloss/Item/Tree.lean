import LuaGloss.Item.Declarations

/-!
# Item trees

An item together with the fields of the table that it holds, the fields of their
tables, and so on.  Entries are declared after the item whose table they belong
to, so that there is an end to it.
-/

namespace LuaGloss

inductive ItemTree where
  | node (item : ItemId) (fields : List ItemTree)

def ItemTree.item : ItemTree → ItemId
  | .node item _ => item

namespace Declarations

def fieldsOf (d : Declarations) (id : ItemId) : List ItemId :=
  match (((d.item? id).bind (·.init?)).bind (·.table?)).bind d.table? with
  | some table => table.fields
  | none => []

def treeOf (d : Declarations) (keep : ItemId → Bool) (id : ItemId) : ItemTree :=
  .node id (((d.fieldsOf id).filter keep).map fun field =>
    if _h : id < field ∧ field < d.items.size then treeOf d keep field
    else .node field [])
termination_by d.items.size - id
decreasing_by exact Nat.sub_lt_sub_left (Nat.lt_trans _h.1 _h.2) _h.1

def forest (d : Declarations) (keep : ItemId → Bool) : List ItemTree :=
  let tops := (List.range d.items.size).filter fun id =>
    (d.item? id).any (·.table?.isNone) && keep id
  tops.map (d.treeOf keep)

end Declarations

end LuaGloss

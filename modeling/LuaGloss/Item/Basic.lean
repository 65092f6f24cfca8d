import LuaGloss.Item.Value

/-!
# Items

An item is something that a source declares: a variable, a function, or a field
of a table.  Items are numbered in the order of their declarations.
-/

namespace LuaGloss

abbrev ItemId := Nat

inductive ItemShape where
  | function (signature : Signature)
  | variable_ (init : Value)
  /-- An entry of a table, with its key if it was written in brackets. -/
  | field (table : TableId) (init index : Value)
  deriving DecidableEq, Repr

structure Item where
  name : Bytes
  file : Bytes
  pos : Pos
  isLocal : Bool
  /-- Whether this is the first declaration of its name. -/
  isPrimary : Bool
  shape : ItemShape
  deriving DecidableEq, Repr

namespace Item

variable (item : Item)

def typeText : Bytes :=
  match item.shape with
  | .function _ => utf8 "function"
  | .variable_ _ => utf8 "variable"
  | .field _ _ _ => utf8 "field"

def table? : Option TableId :=
  match item.shape with
  | .field table _ _ => some table
  | .function _ | .variable_ _ => none

def init? : Option Value :=
  match item.shape with
  | .variable_ init => some init
  | .field _ init _ => some init
  | .function _ => none

def signature? (item : Item) : Option Signature :=
  match item.shape with
  | .function signature => some signature
  | .variable_ init => init.signature?
  | .field _ init _ => init.signature?

def withInit (init : Value) : Item :=
  match item.shape with
  | .variable_ _ => { item with shape := .variable_ init }
  | .field table _ index => { item with shape := .field table init index }
  | .function _ => item

/-- Whether the item is a field that holds a function declared with a colon. -/
def isMethod (item : Item) : Bool :=
  match item.shape with
  | .field _ init _ => init.signature?.any (·.name.isMethod)
  | .function _ | .variable_ _ => false

end Item

end LuaGloss

import LuaGloss.Text.Case

/-!
# Kinds of variables

The documentation shows a variable as a plain member, as an enumeration with its
values, or as a compound with a page of its own.
-/

namespace LuaGloss

inductive VariableKind where
  | normal
  | enum
  | class_
  | struct
  | module_
  deriving DecidableEq, Repr

namespace VariableKind

def all : List VariableKind := [normal, enum, class_, struct, module_]

def text : VariableKind → Bytes
  | normal => utf8 "normal"
  | enum => utf8 "enum"
  | class_ => utf8 "class"
  | struct => utf8 "struct"
  | module_ => utf8 "module"

def ofNumber? : Int → Option VariableKind
  | .ofNat n => all[n]?
  | .negSucc _ => none

/-- The kind that a name denotes, letter case aside.  No name means a plain
variable. -/
def ofText? (name : Bytes) : Option VariableKind :=
  if name.isEmpty then some normal
    else all.find? fun kind => name.foldsTo kind.text

def isCompound : VariableKind → Bool
  | class_ | struct | module_ => true
  | normal | enum => false

end VariableKind

end LuaGloss

import LuaGloss.Token.Basic

/-!
# Function signatures

A function is known by the name under which it was declared and by its
parameters.  A function literal has no name.
-/

namespace LuaGloss

/-- The name of a function declaration: a dotted path, whose last part may be
joined by a colon. -/
structure FunctionName where
  path : List Bytes
  isMethod : Bool
  deriving DecidableEq, Repr, Inhabited

namespace FunctionName

def none : FunctionName := ⟨[], false⟩

def text (name : FunctionName) : Bytes :=
  match name.isMethod, name.path.getLast?, name.path.dropLast with
  | true, some last, owner :: owners =>
    Bytes.join (utf8 ".") (owner :: owners) ++ utf8 ":" ++ last
  | _, _, _ => Bytes.join (utf8 ".") name.path

def last (name : FunctionName) : Bytes := name.path.getLast?.getD []

end FunctionName

/-- A name at the place where it is written. -/
structure Ident where
  name : Bytes
  pos : Pos
  deriving DecidableEq, Repr

structure Signature where
  name : FunctionName
  params : List Ident
  isVararg : Bool
  deriving DecidableEq, Repr

namespace Signature

def argsText (s : Signature) : Bytes :=
  let parts := s.params.map (·.name) ++ (if s.isVararg then [utf8 "..."] else [])
  utf8 "(" ++ Bytes.join (utf8 ", ") parts ++ utf8 ")"

end Signature

end LuaGloss

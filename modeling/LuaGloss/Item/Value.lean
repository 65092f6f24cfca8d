import LuaGloss.Item.Signature

/-!
# Values

A value is an initializer or a key as it is written: the stretch of source text
that it covers and the shape of the expression.  It can grow over the tokens
that follow it, and it never shrinks.
-/

namespace LuaGloss

abbrev TableId := Nat

inductive ValueShape where
  | empty
  | expression
  | constant
  /-- A name or a dotted chain of names. -/
  | reference
  | function (signature : Signature)
  /-- A table constructor; it has a number if its fields were recorded. -/
  | table (id : Option TableId)
  deriving DecidableEq, Repr

namespace ValueShape

def text : ValueShape → Bytes
  | empty => utf8 "empty"
  | expression => utf8 "expression"
  | constant => utf8 "constant"
  | reference => utf8 "variable-ref"
  | function _ => utf8 "function"
  | table _ => utf8 "table"

def textOfNumber : Int → Bytes
  | 0 => utf8 "empty"
  | 1 => utf8 "expression"
  | 2 => utf8 "constant"
  | 3 => utf8 "variable-ref"
  | 4 => utf8 "function"
  | 5 => utf8 "table"
  | _ => utf8 "unknown"

/-- The shape of a name, where a function has the given signature and a table no
number yet. -/
def ofText? (signature : Signature) (name : Bytes) : Option ValueShape :=
  [empty, expression, constant, reference, function signature, table none].find?
    (·.text == name)

end ValueShape

structure Value where
  shape : ValueShape
  start : Int
  stop : Int
  /-- The dotted name of a reference. -/
  ref : Bytes
  source : Bytes
  deriving DecidableEq, Repr

namespace Value

def none : Value := ⟨.empty, 0, 0, [], []⟩

def ofSpan (shape : ValueShape) (source : Bytes) (start stop : Int) : Value :=
  ⟨shape, start, stop, [], source⟩

def ofToken (shape : ValueShape) (source : Bytes) (pos : Pos) : Value :=
  ofSpan shape source pos.offset pos.stop

variable (v : Value)

def isEmpty : Bool := v.shape == .empty

def extendTo (start stop : Int) : Value :=
  if v.isEmpty then v
    else { v with start := min v.start start, stop := max v.stop stop }

def extend (pos : Pos) : Value := v.extendTo pos.offset pos.stop

/-- The source text of the value, verbatim; nothing if the stretch does not lie
in the source. -/
def text : Bytes :=
  if v.isEmpty || v.source.length < v.stop || v.stop < v.start then []
  else v.source.slice v.start.toNat v.stop.toNat

def isTable : Bool :=
  match v.shape with
  | .table _ => true
  | _ => false

def isFunction : Bool :=
  match v.shape with
  | .function _ => true
  | _ => false

def table? : Option TableId :=
  match v.shape with
  | .table id => id
  | _ => Option.none

def signature? : Option Signature :=
  match v.shape with
  | .function signature => some signature
  | _ => Option.none

def withTable (id : Option TableId) : Value :=
  match v.shape with
  | .table _ => { v with shape := .table id }
  | _ => v

end Value

end LuaGloss

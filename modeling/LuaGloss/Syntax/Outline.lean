import LuaGloss.Item.Value
import LuaGloss.Syntax.Fault

/-!
# Outlines

The outline of a source is what is left of its syntax for someone who only wants
to know what it declares: statements, scopes, function bodies, table
constructors and the places where comments are read.  It holds no comments
itself, so it depends on the tokens of the grammar alone.

An outline is read from left to right.  If the source has a syntax error, the
outline ends where the error was found: lists are cut short there, and what
would have followed is absent.  Scopes and bodies that were still open are nodes
all the same, so that they are always left again.
-/

namespace LuaGloss

/-- An expression on the left of an assignment. -/
structure Target where
  /-- The names of a chain of names and string keys; empty for any other
  expression. -/
  path : List Bytes
  /-- The position of the last of them. -/
  pos : Pos
  /-- The key of a bracket at the end. -/
  index : Value
  /-- The expression as it is written. -/
  text : Bytes
  deriving DecidableEq, Repr

/-- The head of a function statement. -/
structure FunctionHead where
  isLocal : Bool
  /-- The position of the word `function`. -/
  opening : Pos
  /-- The last part of the name. -/
  ident : Ident
  signature : Signature
  deriving DecidableEq, Repr

/-- The head of an entry of a table constructor; a positional entry has no name
and no key. -/
structure FieldHead where
  ident : Ident
  index : Value
  deriving DecidableEq, Repr

inductive Node where
  /-- The comments right before the token at `offset` are read here. -/
  | comments (offset : Nat)
  /-- The same inside a table constructor. -/
  | tableComments (offset : Nat)
  /-- The end of a table constructor. -/
  | tableEnd
  /-- A documentation comment that waits for a declaration is dropped here. -/
  | discard
  /-- From here on a comment can no longer refer back. -/
  | forget
  | statement (inner : List Node)
  /-- A block with a scope of its own. -/
  | scope (inner : List Node)
  /-- A function body whose parameter list is closed on `line`.  It is owned if
  it is the first operand of an expression that initializes something. -/
  | body (owned : Bool) (line : Nat) (inner : List Node)
  /-- A table constructor; owned in the same sense. -/
  | table (owned : Bool) (inner : List Node)
  /-- One expression of a list. -/
  | value (inner : List Node)
  /-- An entry of a table constructor: its head, its expression and what that
  comes to. -/
  | entry (head : FieldHead) (inner : List Node) (init : Option Value)
  /-- A declaration of local variables: names, expressions and what these come
  to. -/
  | locals (names : List Ident) (inner : List Node) (inits : Option (List Value))
  | assign (targets : List Target) (inner : List Node)
      (inits : Option (List Value))
  /-- A function statement: its head, its body and, if it is complete, the
  position of its last token. -/
  | function (head : FunctionHead) (inner : List Node) (last : Option Pos)

structure Outline where
  nodes : List Node
  error : Option SyntaxError

end LuaGloss

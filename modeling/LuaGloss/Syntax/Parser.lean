import LuaGloss.Syntax.Outline

/-!
# Parsers

A parser reads tokens from a cursor and yields nodes of the outline on the way.
If it fails, the nodes that it has yielded so far remain.

The type of a cursor bounds the number of tokens that are left.  A parser for
cursors with fewer than `n + 1` tokens can take a token away and go on with a
parser for fewer than `n`, which is how the grammar recurs.
-/

namespace LuaGloss

/-- What does not change while a source is read: its text and the position of
its end. -/
structure Chunk where
  source : Bytes
  finish : Pos

/-- A place in the token stream with fewer than `n` tokens left. -/
structure Cursor (n : Nat) where
  rest : List Token
  /-- The position of the token that was read last. -/
  last : Pos
  bound : rest.length < n

namespace Cursor

def weaken (c : Cursor n) : Cursor (n + 1) :=
  ⟨c.rest, c.last, Nat.lt_succ_of_lt c.bound⟩

def tail (c : Cursor n) : Cursor n :=
  match h : c.rest with
  | [] => c
  | t :: rest => ⟨rest, t.pos, by have := c.bound; simp [h] at this; omega⟩

end Cursor

structure Outcome (n : Nat) (α : Type) where
  nodes : List Node
  result : Except SyntaxError (α × Cursor n)

namespace Outcome

def weaken (o : Outcome n α) : Outcome (n + 1) α :=
  ⟨o.nodes, o.result.map fun (a, c) => (a, c.weaken)⟩

end Outcome

def Parser (n : Nat) (α : Type) : Type := Chunk → Cursor n → Outcome n α

namespace Parser

protected def pure (a : α) : Parser n α := fun _ c => ⟨[], .ok (a, c)⟩

protected def bind (p : Parser n α) (f : α → Parser n β) : Parser n β :=
  fun chunk c =>
  let first := p chunk c
  match first.result with
  | .error e => ⟨first.nodes, .error e⟩
  | .ok (a, c) =>
    let second := f a chunk c
    ⟨first.nodes ++ second.nodes, second.result⟩

instance : Monad (Parser n) where
  pure := Parser.pure
  bind := Parser.bind

def absurd : Parser 0 α := fun _ c => (Nat.not_lt_zero _ c.bound).elim

def emit (node : Node) : Parser n Unit := fun _ c => ⟨[node], .ok ((), c)⟩

/-- Puts what a parser yields, and its value if it succeeds, into other
nodes. -/
def wrap (f : List Node → Option α → List Node) (p : Parser n α) : Parser n α :=
  fun chunk c =>
  let o := p chunk c
  ⟨f o.nodes (o.result.toOption.map Prod.fst), o.result⟩

def within (f : List Node → Node) (p : Parser n α) : Parser n α :=
  p.wrap fun nodes _ => [f nodes]

def throw (e : SyntaxError) : Parser n α := fun _ _ => ⟨[], .error e⟩

/-- The error of the given fault at a token; without a token, at the end of the
source. -/
def errorAt (chunk : Chunk) (t : Option Token) (fault : SyntaxFault) :
    SyntaxError :=
  ⟨fault, t.map (·.lexeme), (t.map (·.pos)).getD chunk.finish⟩

def failAt (t : Option Token) (fault : SyntaxFault) : Parser n α := fun chunk _ =>
  ⟨[], .error (errorAt chunk t fault)⟩

def peek : Parser n (Option Token) := fun _ c => ⟨[], .ok (c.rest.head?, c)⟩

def peekSecond : Parser n (Option Token) :=
  fun _ c => ⟨[], .ok (c.rest.tail.head?, c)⟩

def here : Parser n Pos :=
  fun chunk c => ⟨[], .ok ((c.rest.head?.map (·.pos)).getD chunk.finish, c)⟩

def last : Parser n Pos := fun _ c => ⟨[], .ok (c.last, c)⟩

def source : Parser n Bytes := fun chunk c => ⟨[], .ok (chunk.source, c)⟩

def errorHere (fault : SyntaxFault) : Parser n SyntaxError := fun chunk c =>
  ⟨[], .ok (errorAt chunk c.rest.head? fault, c)⟩

def fail (fault : SyntaxFault) : Parser n α := do throw (← errorHere fault)

def skip : Parser n Unit := fun _ c => ⟨[], .ok ((), c.tail)⟩

def onToken (f : Token → Option (Parser n α)) (otherwise : Parser (n + 1) α) :
    Parser (n + 1) α := fun chunk c =>
  match h : c.rest with
  | [] => otherwise chunk c
  | t :: rest =>
    match f t with
    | none => otherwise chunk c
    | some p =>
      (p chunk ⟨rest, t.pos, by have := c.bound; simp [h] at this; omega⟩).weaken

def nextIs (kind : TokenKind) : Parser n Bool :=
  do return (← peek).any (·.kind == kind)

def accept (kind : TokenKind) : Parser n Bool := do
  if ← nextIs kind then
    skip
    return true
  else return false

def expectSymbol (sign : Symbol) : Parser n Unit := do
  unless ← accept (.symbol sign) do fail (.expected (.symbol sign))

def expectKeyword (word : Keyword) : Parser n Unit := do
  unless ← accept (.keyword word) do fail (.expected (.keyword word))

def expectName : Parser n Ident := do
  match ← peek with
  | some t =>
    if t.kind = .name then
      skip
      return ⟨t.value, t.pos⟩
    else fail (.expected .name)
  | none => fail (.expected .name)

/-- What is reported when the closer of a construct is missing: the place where
it was opened if that is another line. -/
def missing (closer : TokenKind) (what : Expected) (opener : TokenKind)
    (line : Nat) : Parser n Unit := do
  if (← here).line = line then fail (.expected what)
  else fail (.unclosed closer opener line)

def closeSymbol (sign : Symbol) (opener : Symbol) (line : Nat) :
    Parser n Unit := do
  unless ← accept (.symbol sign) do
    missing (.symbol sign) (.symbol sign) (.symbol opener) line

def closeKeyword (word : Keyword) (opener : Keyword) (line : Nat) :
    Parser n Unit := do
  unless ← accept (.keyword word) do
    missing (.keyword word) (.keyword word) (.keyword opener) line

/-- A value of the given shape from `start` to the token that was read last. -/
def span (shape : ValueShape) (start : Pos) : Parser n Value := do
  return (Value.ofToken shape (← source) start).extend (← last)

end Parser

end LuaGloss

import LuaGloss.Syntax.Parser

/-!
# The grammar of expressions

The parsers of the grammar call each other.  They are written here against a
record of the parsers for shorter token lists, so that each is an ordinary
function; the record is built up later, one token at a time.

    exp      ::= unop exp | simple | exp binop exp
    simple   ::= number | string | nil | true | false | '...'
               | table | function body | suffixed
    suffixed ::= (name | '(' exp ')') suffix*
    suffix   ::= '.' name | '[' exp ']' | ':' name args | args
    args     ::= '(' [explist] ')' | table | string
    table    ::= '{' [entry {sep entry} [sep]] '}'
    entry    ::= '[' exp ']' '=' exp | name '=' exp | exp
-/

namespace LuaGloss

/-- A primary expression with the suffixes read so far. -/
structure Suffixed where
  start : Pos
  /-- The names of a chain of names and string keys; empty for any other
  expression. -/
  path : List Bytes
  pos : Pos
  index : Value
  isCall : Bool
  isAssignable : Bool
  /-- Whether there is nothing but a name and dotted names. -/
  isNameChain : Bool
  value : Value

namespace Suffixed

def ofName (ident : Ident) : Suffixed :=
  ⟨ident.pos, [ident.name], ident.pos, .none, false, true, true, .none⟩

def ofParens (start : Pos) : Suffixed :=
  ⟨start, [], .none, .none, false, false, false, .none⟩

variable (s : Suffixed)

def extendPath (ident : Ident) : Suffixed :=
  if s.path.isEmpty then s
    else { s with path := s.path ++ [ident.name], pos := ident.pos }

def dot (ident : Ident) : Suffixed :=
  { s.extendPath ident with index := .none, isCall := false, isAssignable := true }

/-- A bracket suffix, with the name that its key stands for if it is a
string. -/
def bracket (key : Option Ident) (index : Value) : Suffixed :=
  let s := match key with
    | some ident => s.extendPath ident
    | none => { s with path := [] }
  { s with index, isCall := false, isAssignable := true, isNameChain := false }

def call : Suffixed :=
  { s with
    path := [], index := .none, isCall := true
    isAssignable := false, isNameChain := false }

def target : Target := ⟨s.path, s.pos, s.index, s.value.text⟩

end Suffixed

/-- The parsers of the grammar for cursors with fewer than `n` tokens left. -/
structure Grammar (n : Nat) where
  /-- An expression whose binary operators bind more tightly than `limit`. -/
  expression (limit : Nat) (owned : Bool) : Parser n Value
  /-- The operators that follow an operand which starts at `start`. -/
  operators (limit : Nat) (start : Pos) (operand : Value) : Parser n Value
  suffixes (s : Suffixed) : Parser n Suffixed
  /-- A list of expressions. -/
  values (owned : Bool) : Parser n (List Value)
  /-- The entries of a table constructor up to its closing brace. -/
  entries : Parser n Unit
  /-- More targets of an assignment. -/
  targets : Parser n (List Suffixed)
  /-- More branches of an `if` statement. -/
  branches : Parser n Unit
  /-- Statements up to the end of a block. -/
  block : Parser n Unit

/-- How tightly a binary operator binds to its left and to its right.  One that
binds more tightly to the left groups to the right. -/
def TokenKind.priority? : TokenKind → Option (Nat × Nat)
  | .keyword .or_ => some (1, 1)
  | .keyword .and_ => some (2, 2)
  | .symbol .less | .symbol .greater | .symbol .lessEqual
  | .symbol .greaterEqual | .symbol .notEqual
  | .symbol .equal => some (3, 3)
  | .symbol .pipe => some (4, 4)
  | .symbol .tilde => some (5, 5)
  | .symbol .ampersand => some (6, 6)
  | .symbol .shiftLeft | .symbol .shiftRight => some (7, 7)
  | .symbol .concat => some (9, 8)
  | .symbol .plus | .symbol .minus => some (10, 10)
  | .symbol .star | .symbol .slash | .symbol .floorDiv
  | .symbol .percent => some (11, 11)
  | .symbol .caret => some (14, 13)
  | _ => none

def unaryPriority : Nat := 12

def TokenKind.isUnary : TokenKind → Bool
  | .keyword .not_ | .symbol .minus | .symbol .hash | .symbol .tilde => true
  | _ => false

def TokenKind.isConstant : TokenKind → Bool
  | .number | .string | .keyword .nil_ | .keyword .true_ | .keyword .false_ => true
  | _ => false

/-- The name that a key stands for: the body of a string that is the whole
key. -/
def keyIdent? (key : Option Token) (index : Value) : Option Ident :=
  match key with
  | some t =>
    if t.kind = .string && index.shape == .constant then
      some ⟨t.value, t.pos⟩ else none
  | none => none

/-- What was read of the parameters of a function, also if an error cut them
short. -/
structure Parameters where
  idents : List Ident
  isVararg : Bool
  error : Option SyntaxError

def Parser.parameters : (n : Nat) → Parser n Parameters
  | 0 => Parser.absurd
  | n + 1 =>
    Parser.onToken
      (fun t =>
        if t.kind = .symbol .ellipsis then some (return ⟨[], true, none⟩)
        else if t.kind = .name then
          some do
            let ident : Ident := ⟨t.value, t.pos⟩
            if ← Parser.accept (.symbol .comma) then
              let more ← Parser.parameters n
              return { more with idents := ident :: more.idents }
            else return ⟨[ident], false, none⟩
        else none)
      (return ⟨[], false, some (← Parser.errorHere (.expected .name))⟩)

/-- The parameter list of a function; `closed` is the line of its closing
parenthesis. -/
structure Header where
  idents : List Ident
  isVararg : Bool
  closed : Except SyntaxError Nat

def Parser.header : Parser n Header := do
  if ← Parser.accept (.symbol .leftParen) then
    let read ← if ← Parser.nextIs (.symbol .rightParen) then
        pure ⟨[], false, none⟩ else Parser.parameters n
    match read.error with
    | some e => return ⟨read.idents, read.isVararg, .error e⟩
    | none =>
      if ← Parser.accept (.symbol .rightParen) then
        return ⟨read.idents, read.isVararg, .ok (← Parser.last).line⟩
      else
        return ⟨read.idents, read.isVararg,
          .error (← Parser.errorHere (.expected (.symbol .rightParen)))⟩
  else return ⟨[], false,
    .error (← Parser.errorHere (.expected (.symbol .leftParen)))⟩

namespace Grammar

open LuaGloss.Parser

variable (g : Grammar n)

variable (owned : Bool) (t : Token)

def functionBody (line : Nat) (opening : Pos) : Parser n Unit := do
  within (.body owned line) g.block
  closeKeyword .end_ .function_ opening.line

def tableBody (opening : Pos) : Parser n Unit := do
  within (.table owned) do
    g.entries
  closeSymbol .rightBrace .leftBrace opening.line

def argumentsFrom : Parser n Unit :=
  match t.kind with
  | .string => return
  | .symbol .leftBrace => g.tableBody false t.pos
  | .symbol .leftParen => do
    unless ← nextIs (.symbol .rightParen) do
      let _ ← g.values false
    closeSymbol .rightParen .leftParen t.pos.line
  | _ => failAt (some t) .argumentsExpected

def arguments : Parser n Unit := do
  match ← peek with
  | some t =>
    skip
    g.argumentsFrom t
  | none => fail .argumentsExpected

/-- A primary expression and its suffixes, whose first token `t` has been taken
away. -/
def suffixedFrom : Parser n Suffixed :=
  match t.kind with
  | .name => g.suffixes (.ofName ⟨t.value, t.pos⟩)
  | .symbol .leftParen => do
    let _ ← g.expression 0 false
    closeSymbol .rightParen .leftParen t.pos.line
    g.suffixes (.ofParens t.pos)
  | _ => failAt (some t) .unexpectedSymbol

def suffixed : Parser n Suffixed := do
  match ← peek with
  | some t =>
    skip
    g.suffixedFrom t
  | none => fail .unexpectedSymbol

def simpleFrom : Parser n Value :=
  if t.kind.isConstant then span .constant t.pos
  else
    match t.kind with
    | .symbol .ellipsis => span .expression t.pos
    | .symbol .leftBrace => do
      g.tableBody owned t.pos
      span (.table none) t.pos
    | .keyword .function_ => do
      let head ← header
      match head.closed with
      | .error e => throw e
      | .ok line =>
        g.functionBody owned line t.pos
        span (.function ⟨.none, head.idents, head.isVararg⟩) t.pos
    | _ => do return (← g.suffixedFrom t).value

def operandFrom : Parser n Value :=
  if t.kind.isUnary then do
    let _ ← g.expression unaryPriority false
    span .expression t.pos
  else g.simpleFrom owned t

def expressionRule (limit : Nat) (owned : Bool) : Parser (n + 1) Value :=
  onToken
    (fun t => some do
      let operand ← g.operandFrom owned t
      g.operators limit t.pos operand)
    (fail .unexpectedSymbol)

def operatorsRule (limit : Nat) (start : Pos) (operand : Value) :
    Parser (n + 1) Value :=
  onToken
    (fun t =>
      match t.kind.priority? with
      | some (left, right) =>
        if left ≤ limit then none
        else some do
          let _ ← g.expression right false
          g.operators limit start (← span .expression start)
      | none => none)
    (return operand)

def suffixesRule (s : Suffixed) : Parser (n + 1) Suffixed :=
  onToken
    (fun t =>
      match t.kind with
      | .symbol .dot => some do
        g.suffixes (s.dot (← expectName))
      | .symbol .leftBracket => some do
        let key ← peek
        let index ← g.expression 0 false
        closeSymbol .rightBracket .leftBracket t.pos.line
        g.suffixes (s.bracket (keyIdent? key index) index)
      | .symbol .colon => some do
        let _ ← expectName
        g.arguments
        g.suffixes s.call
      | .symbol .leftParen | .string | .symbol .leftBrace => some do
        g.argumentsFrom t
        g.suffixes s.call
      | _ => none)
    (do
      if s.isNameChain then
        let value ← span .reference s.start
        return { s with
          value := { value with ref := Bytes.join (utf8 ".") s.path } }
      else return { s with value := ← span .expression s.start })

def valuesRule : Parser (n + 1) (List Value) := do
  let value ← within .value (g.expressionRule 0 owned)
  onToken
    (fun t => if t.kind = .symbol .comma then some do return value ::
      (← g.values owned) else none)
    (return [value])

def entryValue (head : FieldHead) (p : Parser n Value) : Parser n Value :=
  p.wrap fun nodes init => [.entry head nodes init]

def entry : Parser (n + 1) Unit := do
  let pos ← here
  let second ← peekSecond
  onToken
    (fun t =>
      match t.kind with
      | .name =>
        if second.any (·.kind == .symbol .assign) then some do
          skip
          let _ ← entryValue ⟨⟨t.value, t.pos⟩, .none⟩ (g.expression 0 true)
        else none
      | .symbol .leftBracket => some do
        let key ← peek
        let keyPos ← here
        let index ← g.expression 0 false
        closeSymbol .rightBracket .leftBracket t.pos.line
        expectSymbol .assign
        let name := ((keyIdent? key index).map (·.name)).getD []
        let _ ← entryValue ⟨⟨name, keyPos⟩, index⟩ (g.expression 0 true)
      | _ => none)
    (do let _ ← entryValue ⟨⟨[], pos⟩, .none⟩ (g.expressionRule 0 true))

def tableEnd : Parser n Unit := do
  emit (.tableComments (← here).offset)
  emit .tableEnd

def entriesRule : Parser (n + 1) Unit := do
  if ← nextIs (.symbol .rightBrace) then tableEnd
  else
    emit (.tableComments (← here).offset)
    g.entry
    onToken
      (fun t => if t.kind = .symbol .comma || t.kind = .symbol .semicolon then
        some g.entries else none)
      tableEnd

end Grammar

end LuaGloss

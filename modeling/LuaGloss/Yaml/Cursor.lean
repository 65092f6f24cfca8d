import LuaGloss.Yaml.Basic
import LuaGloss.Yaml.Stream

/-!
# Cursors

A cursor stands between two characters of a stream.  Before characters are
looked at, it has to be said how many of them are needed; the cursor then makes
whole chunks visible.  Behind the end of the stream stand zeros, which are no
characters of any text.
-/

namespace LuaGloss.Yaml

def byteOrderMark : Nat := 0xFEFF

def isBlank (code : Nat) : Bool := code == 0x20 || code == 0x09

def isBreak (code : Nat) : Bool :=
  code == 0x0A || code == 0x0D || code == 0x85 || code == 0x2028 || code == 0x2029

def isLineEnd (code : Nat) : Bool := isBreak code || code == 0

def isGap (code : Nat) : Bool := isBlank code || isLineEnd code

def isDigit (code : Nat) : Bool := 0x30 ≤ code && code ≤ 0x39

def isHexDigit (code : Nat) : Bool :=
  isDigit code || (0x61 ≤ code && code ≤ 0x66) || (0x41 ≤ code && code ≤ 0x46)

def digitValue (code : Nat) : Nat :=
  if isDigit code then code - 0x30
    else if 0x61 ≤ code then code - 0x57 else code - 0x37

def isNameCode (code : Nat) : Bool :=
  isDigit code || (0x61 ≤ code && code ≤ 0x7A) ||
    (0x41 ≤ code && code ≤ 0x5A) || code == 0x5F || code == 0x2D

def codeOf (c : Char) : Nat := c.toNat

structure Cursor where
  /-- The characters that can be seen. -/
  ahead : List Nat
  chunks : List (List Nat)
  isBroken : Bool
  /-- Whether a byte order mark stood at the front when characters were made
  visible the last time. -/
  isMarked : Bool
  /-- The number of characters that are behind the cursor. -/
  index : Nat
  line : Nat
  column : Nat
  /-- More than the number of characters in the stream. -/
  limit : Nat

abbrev CursorM := EStateM Fault Cursor

namespace Cursor

def ofStream (stream : Stream) : Cursor :=
  ⟨[], stream.chunks, stream.isBroken, false, 0, 0, 0, stream.size + 8⟩

/-- Makes chunks visible until `count` characters can be seen or no chunk is
left. -/
def load (count : Nat) (ahead : List Nat) :
    List (List Nat) → List Nat × List (List Nat)
  | [] => (ahead, [])
  | chunk :: chunks =>
    if count ≤ (ahead ++ chunk).length then (ahead ++ chunk, chunks)
    else load count (ahead ++ chunk) chunks

def need (count : Nat) : CursorM Unit := do
  let c ← get
  if (c.ahead.take count).length < count then
    let (ahead, chunks) := load count c.ahead c.chunks
    let isShort := ahead.length < count
    if isShort && c.isBroken then throw .notText
    let ahead := if isShort then ahead ++ [0] else ahead
    set { c with ahead, chunks, isMarked := ahead.head? == some byteOrderMark }

/-- The character that stands the given number of characters behind the next
one. -/
def peekAt (distance : Nat) : CursorM Nat :=
  return ((← get).ahead.drop distance).headD 0

def peek : CursorM Nat := peekAt 0

def column_ : CursorM Nat := return (← get).column

def limit_ : CursorM Nat := return (← get).limit

def skip : CursorM Unit :=
  modify fun c =>
    { c with ahead := c.ahead.tail, index := c.index + 1, column := c.column + 1 }

def take : CursorM Bytes := do
  let code ← peek
  skip
  return Utf8.encode code

/-- The cursor behind a line break, and the text that the line break stands for.
Where there is no line break, nothing happens. -/
def afterBreak (c : Cursor) : Bytes × Cursor :=
  let next (count : Nat) : Cursor :=
    { c with
      ahead := c.ahead.drop count, index := c.index + count
      line := c.line + 1, column := 0 }
  match c.ahead with
  | 0x0D :: 0x0A :: _ => ([Byte.lineFeed], next 2)
  | code :: _ =>
    if code = 0x2028 ∨ code = 0x2029 then (Utf8.encode code, next 1)
    else if isBreak code then ([Byte.lineFeed], next 1)
    else ([], c)
  | [] => ([], c)

def takeBreak : CursorM Bytes := do
  need 2
  modifyGet afterBreak

def takeWhileWithin (p : Nat → Bool) : (fuel : Nat) → CursorM Bytes
  | 0 => return []
  | fuel + 1 => do
    need 1
    if p (← peek) then
      let character ← take
      return character ++ (← takeWhileWithin p fuel)
    else return []

/-- Takes characters as long as they fulfil a condition, which no zero does. -/
def takeWhile (p : Nat → Bool) : CursorM Bytes := do takeWhileWithin p (← limit_)

def skipWhile (p : Nat → Bool) : CursorM Unit := discard (takeWhile p)

/-- Skips the rest of a line up to its end, on which nothing but blanks and a
comment may stand. -/
def skipLineRest (fault : Fault) : CursorM Unit := do
  skipWhile isBlank
  if (← peek) = codeOf '#' then skipWhile (!isLineEnd ·)
  unless isLineEnd (← peek) do throw fault
  if isBreak (← peek) then discard takeBreak

/-- Whether the next characters mark a bound of documents: three times the given
one, at the start of a line. -/
def atMark (c : Char) : CursorM Bool := do
  let code := codeOf c
  return (← column_) == 0 && (← get).ahead.take 3 == [code, code, code] &&
    isGap (← peekAt 3)

/-- Whether a document starts or ends here.  Four characters have to be
visible. -/
def atBound : CursorM Bool := do
  let atStart ← atMark '-'
  let atEnd ← atMark '.'
  return atStart || atEnd

end Cursor

end LuaGloss.Yaml

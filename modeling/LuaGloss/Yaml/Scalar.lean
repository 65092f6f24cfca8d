import LuaGloss.Yaml.Cursor

/-!
# YAML scalars

Plain and quoted scalars may go on over several lines.  A single line feed in
them counts as a space, and of several line breaks in a row the first is
dropped; the line and paragraph separators of Unicode are kept.  Block scalars
are taken line by line.
-/

namespace LuaGloss.Yaml

/-- Blanks and line breaks between the words of a scalar. -/
structure Fold where
  /-- The blanks on the line of the last word, from the last one on. -/
  blanks : List Bytes := []
  /-- The first line break. -/
  first : Bytes := []
  /-- The line breaks after the first, from the last one on. -/
  more : List Bytes := []
  /-- Whether a line has ended, be it with a line break that counts or with one
  that does not. -/
  isBroken : Bool := false

namespace Fold

def text (f : Fold) : Bytes :=
  if f.isBroken then
    let more := f.more.reverse.flatten
    if f.first.head? = some Byte.lineFeed then if more.isEmpty then
      [Byte.space]
    else more
    else f.first ++ more
  else f.blanks.reverse.flatten

def addBlank (f : Fold) (blank : Bytes) : Fold :=
  if f.isBroken then f else { f with blanks := blank :: f.blanks }

def addBreak (f : Fold) (break_ : Bytes) : Fold :=
  if f.isBroken then { f with more := break_ :: f.more }
    else ⟨[], break_, [], true⟩

open LuaGloss.Yaml.Cursor

/-- Takes blanks and line breaks.  At the start of a line a tab must not stand
in front of the given column. -/
def takeWithin (column : Int) : (fuel : Nat) → Fold → CursorM Fold
  | 0, f => return f
  | fuel + 1, f => do
    need 1
    let code ← peek
    if isBlank code then
      if code = 0x09 ∧ f.isBroken ∧ (← column_) < column then
        throw .tabInIndentation
      takeWithin column fuel (f.addBlank (← take))
    else if isBreak code then takeWithin column fuel (f.addBreak (← takeBreak))
    else return f

end Fold

open LuaGloss.Yaml.Cursor

def isFlowMark (code : Nat) : Bool :=
  code == codeOf ',' || code == codeOf '?' || code == codeOf '[' || code ==
    codeOf ']' || code == 0x7B || code == 0x7D

def plainWord (inFlow : Bool) : (fuel : Nat) → CursorM Bytes
  | 0 => return []
  | fuel + 1 => do
    let code ← peek
    let isEnd :=
      isGap code || (code == codeOf ':' && isGap (← peekAt 1)) ||
        (inFlow && isFlowMark code)
    if isEnd then return []
    else
      let character ← take
      need 2
      return character ++ (← plainWord inFlow fuel)

/-- The rest of a plain scalar behind a fold.  Outside of flow collections its
further lines start at the given column or behind it.  Whether the scalar ended
with a line is told as well. -/
def plainScalarWithin (inFlow : Bool) (column : Int) :
    (fuel : Nat) → Fold → CursorM (Bytes × Bool)
  | 0, f => return ([], f.isBroken)
  | fuel + 1, f => do
    need 4
    let isBound ← atBound
    if isBound || (← peek) == codeOf '#' then return ([], f.isBroken)
    let word ← plainWord inFlow (← limit_)
    let (text, f) := if word.isEmpty then ([], f) else (f.text ++ word, {})
    let code ← peek
    unless isBlank code || isBreak code do return (text, f.isBroken)
    let f ← f.takeWithin column (← limit_)
    if !inFlow && (← column_) < column then return (text, f.isBroken)
    let (rest, isBroken) ← plainScalarWithin inFlow column fuel f
    return (text ++ rest, isBroken)

/-- A plain scalar, whose further lines are indented deeper than `indent`, and
whether it ended with a line. -/
def plainScalar (inFlow : Bool) (indent : Int) : CursorM (Bytes × Bool) := do
  plainScalarWithin inFlow (indent + 1) (← limit_) {}

/-- The escapes of one letter, each with the code of the character that it
stands for. -/
def letterEscapes : List (Nat × Nat) :=
  [(0x30, 0), (0x61, 7), (0x62, 8), (0x74, 9), (9, 9), (0x6E, 10), (0x76, 11),
    (0x66, 12), (0x72, 13), (0x65, 27),
    (0x20, 0x20), (0x22, 0x22), (0x27, 0x27), (0x5C, 0x5C), (0x4E, 0x85),
      (0x5F, 0xA0), (0x4C, 0x2028), (0x50, 0x2029)]

def digitEscapes : List (Nat × Nat) := [(0x78, 2), (0x75, 4), (0x55, 8)]

/-- The character whose code is written with the given number of hexadecimal
digits. -/
def hexEscape (count : Nat) : CursorM Bytes := do
  need count
  let digits := (← get).ahead.take count
  let code := digits.foldl (fun code digit => code * 16 + digitValue digit) 0
  let isScalar := code ≤ 0x10FFFF && !(0xD800 ≤ code && code ≤ 0xDFFF)
  unless digits.length = count && digits.all isHexDigit && isScalar do
    throw .unknownEscape
  for _ in digits do skip
  return Utf8.encode code

def escape : CursorM Bytes := do
  let letter ← peekAt 1
  match letterEscapes.lookup letter, digitEscapes.lookup letter with
  | some code, _ =>
    skip
    skip
    return Utf8.encode code
  | none, some count =>
    skip
    skip
    hexEscape count
  | none, none => throw .unknownEscape

/-- A word of a quoted scalar, and whether an escaped line break ends it.
Between apostrophes an apostrophe is written twice, between quotes a backslash
starts an escape. -/
def quotedWord (mark : Nat) : (fuel : Nat) → CursorM (Bytes × Bool)
  | 0 => return ([], false)
  | fuel + 1 => do
    let code ← peek
    let following ← peekAt 1
    let isApostrophe := mark == codeOf '\''
    let isDoubled := isApostrophe && code == mark && following == mark
    if isGap code || (code == mark && !isDoubled) then return ([], false)
    else if code = codeOf '\\' ∧ !isApostrophe ∧ isBreak following then
      need 3
      skip
      discard takeBreak
      return ([], true)
    else
      let character ←
        if isDoubled then
          skip
          take
        else if code = codeOf '\\' ∧ !isApostrophe then escape
        else take
      need 2
      let (word, isJoined) ← quotedWord mark fuel
      return (character ++ word, isJoined)

def quotedScalarWithin (mark : Nat) : (fuel : Nat) → CursorM Bytes
  | 0 => throw .unterminatedScalar
  | fuel + 1 => do
    need 4
    let isBound ← atBound
    if isBound || (← peek) == 0 then throw .unterminatedScalar
    let (word, isJoined) ← quotedWord mark (← limit_)
    need 1
    if (← peek) = mark then
      skip
      return word
    else
      let f ← Fold.takeWithin 0 (← limit_) { isBroken := isJoined }
      return word ++ f.text ++ (← quotedScalarWithin mark fuel)

def quotedScalar (mark : Nat) : CursorM Bytes := do
  skip
  quotedScalarWithin mark (← limit_)

/-- What becomes of the line breaks at the end of a block scalar. -/
inductive Chomping where
  | strip
  | clip
  | keep
  deriving DecidableEq, Repr

def chomping? : CursorM (Option Chomping) := do
  need 1
  let code ← peek
  if code = codeOf '+' then
    skip
    return some .keep
  else if code = codeOf '-' then
    skip
    return some .strip
  else return none

def indentation? : CursorM (Option Nat) := do
  need 1
  let code ← peek
  if code = codeOf '0' then throw .unexpectedCharacter
  else if isDigit code then
    skip
    return some (digitValue code)
  else return none

/-- The head of a block scalar: its chomping and its indentation, in either
order. -/
def blockHead : CursorM (Chomping × Option Nat) := do
  let head ← do
    match ← chomping? with
    | some chomping => pure (chomping, ← indentation?)
    | none =>
      match ← indentation? with
      | some indentation => pure ((← chomping?).getD .clip, some indentation)
      | none => pure (.clip, none)
  skipLineRest .unexpectedCharacter
  return head

/-- Skips spaces up to the given column, or all of them if no column is
given. -/
def skipSpacesWithin (column : Option Nat) : (fuel : Nat) → CursorM Unit
  | 0 => return
  | fuel + 1 => do
    need 1
    let here ← column_
    if column.all (here < ·) && (← peek) == 0x20 then
      skip
      skipSpacesWithin column fuel

/-- Skips indentation and takes empty lines; the deepest column that was
reached, and the line breaks. -/
def emptyLinesWithin (column : Option Nat) : (fuel : Nat) → CursorM (Nat × Bytes)
  | 0 => return (0, [])
  | fuel + 1 => do
    skipSpacesWithin column (← limit_)
    let here ← column_
    let code ← peek
    if column.all (here < ·) && code == 0x09 then throw .tabInIndentation
    if isBreak code then
      let break_ ← takeBreak
      let (deepest, breaks) ← emptyLinesWithin column fuel
      return (max here deepest, break_ ++ breaks)
    else return (here, [])

/-- The lines of a block scalar that starts at the given column.  `first` and
`more` are the line breaks since the last line that is not empty, and `isBlank_`
says whether that line started with a blank. -/
def blockLinesWithin (isLiteral : Bool) (chomping : Chomping) (column : Nat) :
    (fuel : Nat) → (first more : Bytes) → (isBlank_ : Bool) → CursorM Bytes
  | 0, _, _, _ => return []
  | fuel + 1, first, more, isBlank_ => do
    let code ← peek
    if (← column_) = column ∧ code ≠ 0 then
      let isFolded :=
        !isLiteral && !isBlank_ && !isBlank code && first.head? ==
          some Byte.lineFeed
      let between :=
        if isFolded then if more.isEmpty then [Byte.space] else [] else first
      let line ← takeWhile (!isLineEnd ·)
      let next ← takeBreak
      let (_, breaks) ← emptyLinesWithin (some column) (← limit_)
      let rest ← blockLinesWithin isLiteral chomping column fuel next breaks
          (isBlank code)
      return between ++ more ++ line ++ rest
    else
      match chomping with
      | .strip => return []
      | .clip => return first
      | .keep => return first ++ more

/-- A block scalar from its indicator on, where `indent` is the indentation
around it. -/
def blockScalar (isLiteral : Bool) (indent : Int) : CursorM Bytes := do
  skip
  let (chomping, given) ← blockHead
  let column := given.map (indent.toNat + ·)
  let (deepest, breaks) ← emptyLinesWithin column (← limit_)
  let column := column.getD (max deepest (max (indent + 1).toNat 1))
  need 1
  blockLinesWithin isLiteral chomping column (← limit_) [] breaks false

end LuaGloss.Yaml

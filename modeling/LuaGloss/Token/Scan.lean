import LuaGloss.Token.Numeral

/-!
# Scanning

The scanner stands at a place in the source with the rest of the text before it.
One step looks at the front of the rest, decides what stands there and how long
it is, and moves past it.  Since every step but the last one moves on, the
stream of tokens ends.
-/

namespace LuaGloss

/-- A place between two bytes of the source. -/
structure Place where
  offset : Nat
  line : Nat
  col : Nat
  deriving DecidableEq, Repr

namespace Place

def start : Place := ⟨0, 1, 1⟩

def step (place : Place) (b : UInt8) : Place :=
  if b = Byte.lineFeed then ⟨place.offset + 1, place.line + 1, 1⟩
  else ⟨place.offset + 1, place.line, place.col + 1⟩

def after (place : Place) (s : Bytes) : Place := s.foldl step place

def pos (place : Place) (length : Nat) : Pos :=
  ⟨place.offset, length, place.line, place.col⟩

end Place

/-- What stands at the front of a text: a token or, without content, a plain
comment; and how many bytes it has beyond the first. -/
structure Front where
  content : Option Content
  more : Nat

namespace Front

def ofContent (content : Content) (length : Nat) : Front :=
  ⟨some content, length - 1⟩

end Front

namespace LongBracket

/-- The level of a long bracket that opens at the front, and the text after
it. -/
def open? : Bytes → Option (Nat × Bytes)
  | Byte.openBracket :: rest =>
    match rest.dropWhile (· == Byte.equals) with
    | Byte.openBracket :: body =>
      some ((rest.takeWhile (· == Byte.equals)).length, body)
    | _ => none
  | _ => none

def closer (level : Nat) : Bytes :=
  Byte.closeBracket :: (List.replicate level Byte.equals ++ [Byte.closeBracket])

def body? (level : Nat) (s : Bytes) : Option Bytes :=
  (Bytes.cut (closer level) s).map Prod.fst

def size (level : Nat) (body : Bytes) : Nat := body.length + 2 * (level + 2)

end LongBracket

namespace Front

def comment (form : CommentForm) (text : Bytes) (length : Nat) : Front :=
  match text with
  | Byte.less :: body => ofContent (.comment form true body) length
  | body => ofContent (.comment form false body) length

/-- A comment up to the end of its line, without the carriage return that may
end it. -/
def lineComment (line : Bytes) : Front :=
  let body :=
    if line.getLast? = some Byte.carriageReturn then line.dropLast else line
  comment .line body (3 + line.length)

def ofDashes (rest : Bytes) : Front :=
  match LongBracket.open? rest with
  | some (level, inner) =>
    match LongBracket.body? level inner with
    | none => ofContent (.fault .unterminatedLongComment Byte.openBracket) 2
    | some body =>
      let length := 2 + LongBracket.size level body
      match body with
      | Byte.bang :: text => comment .block text length
      | _ => ⟨none, length - 1⟩
  | none =>
    match rest with
    | Byte.bang :: text => lineComment (text.takeWhile (· != Byte.lineFeed))
    | _ => ⟨none, 1 + (rest.takeWhile (· != Byte.lineFeed)).length⟩

/-- The text of a quoted string up to its quote, a line feed or the end, and
whether the quote was found.  A backslash keeps the byte after it from ending
the string. -/
def quotedBody (quote : UInt8) : Bytes → Bool × Bytes
  | [] => (false, [])
  | b :: rest =>
    if b = quote then (true, [])
    else if b = Byte.lineFeed then (false, [])
    else if b = Byte.backslash then
      match rest with
      | [] => (false, [b])
      | c :: rest =>
        let (closed, body) := quotedBody quote rest
        (closed, b :: c :: body)
    else
      let (closed, body) := quotedBody quote rest
      (closed, b :: body)

def ofQuote (quote : UInt8) (rest : Bytes) : Front :=
  let (closed, body) := quotedBody quote rest
  if closed then ofContent (.string body) (body.length + 2)
  else ofContent (.fault .unterminatedString quote) (body.length + 1)

def longStringValue (body : Bytes) : Bytes :=
  Bytes.dropPrefix [Byte.lineFeed] (Bytes.dropPrefix [Byte.carriageReturn] body)

def ofLongBracket (level : Nat) (inner : Bytes) : Front :=
  match LongBracket.body? level inner with
  | none => ofContent (.fault .unterminatedLongString Byte.openBracket) 1
  | some body =>
    ofContent (.string (longStringValue body)) (LongBracket.size level body)

def ofWord (s : Bytes) : Front :=
  let word := s.takeWhile Byte.isNameByte
  match Keyword.ofText? word with
  | some keyword => ofContent (.keyword keyword) word.length
  | none => ofContent .name word.length

def ofNumeral (s : Bytes) : Front :=
  let reading := Numeral.read s
  ofContent reading.content (s.length - reading.rest.length)

def ofSymbol (b : UInt8) (s : Bytes) : Front :=
  match Symbol.atFront? s with
  | some symbol => ofContent (.symbol symbol) symbol.text.length
  | none => ofContent (.fault .invalidCharacter b) 1

/-- What stands at the front of the text `b :: rest`, where `b` is not blank. -/
def recognize (b : UInt8) (rest : Bytes) : Front :=
  if b = Byte.dash && rest.head? == some Byte.dash then ofDashes rest.tail
  else if Byte.isNameStart b then ofWord (b :: rest)
  else if Byte.isDigit b || (b = Byte.dot && Byte.isDigit (rest.headD 0)) then
  ofNumeral (b :: rest)
  else if b = Byte.quote || b = Byte.apostrophe then ofQuote b rest
  else
    match LongBracket.open? (b :: rest) with
    | some (level, inner) => ofLongBracket level inner
    | none => ofSymbol b (b :: rest)

end Front

/-- A place in the source and the text that follows it. -/
structure Scanner where
  rest : Bytes
  place : Place
  deriving DecidableEq, Repr

namespace Scanner

variable (s : Scanner)

def advance (count : Nat) : Scanner :=
  ⟨s.rest.drop count, s.place.after (s.rest.take count)⟩

/-- The scanner at the start of a source.  A first line that begins with `#!` is
passed over. -/
def ofSource (source : Bytes) : Scanner :=
  let s : Scanner := ⟨source, .start⟩
  if (utf8 "#!").isPrefixOf source then
  s.advance (source.takeWhile (· != Byte.lineFeed)).length else s

def skipBlanks : Scanner := s.advance (s.rest.takeWhile Byte.isBlank).length

def token (content : Content) (length : Nat) : Token :=
  ⟨content, s.place.pos length, s.rest.take length⟩

theorem length_advance (count : Nat) :
    (s.advance count).rest.length = s.rest.length - count := by
  simp [advance]

theorem length_skipBlanks_le : s.skipBlanks.rest.length ≤ s.rest.length := by
  simp [skipBlanks, length_advance]

def next (s : Scanner) : Token × Scanner :=
  match _h : s.skipBlanks.rest with
  | [] => (s.skipBlanks.token .endOfInput 0, s.skipBlanks)
  | b :: rest =>
    let front := Front.recognize b rest
    let length := front.more + 1
    match front.content with
    | some content =>
      (s.skipBlanks.token content length, s.skipBlanks.advance length)
    | none => next (s.skipBlanks.advance length)
termination_by s.rest.length
decreasing_by
  have h₁ := length_skipBlanks_le s
  have h₂ : s.skipBlanks.rest.length = rest.length + 1 := by simp [_h]
  simp only [length_advance]
  omega

/-- Every token but the end of the input takes something away from the text. -/
theorem next_progress :
    s.next.1.content ≠ .endOfInput → s.next.2.rest.length < s.rest.length := by
  fun_induction next s with
  | case1 s => simp [token]
  | case2 s b rest h front length content =>
    intro _
    have h₁ := length_skipBlanks_le s
    have h₂ : s.skipBlanks.rest.length = rest.length + 1 := by simp [h]
    simp only [length_advance]
    omega
  | case3 s b rest h front length hnone ih =>
    intro hc
    have h₁ := length_skipBlanks_le s
    have h₃ := ih hc
    simp only [length_advance] at h₃
    omega

end Scanner

end LuaGloss

import LuaGloss.Token.Basic

/-!
# Numeric literals

A literal is read from the front of a text in one pass: an integer or a fraction
in decimal or hexadecimal, or an octal integer, each with its exponent.  The
result says what is left of the text, so that the literal is what was taken
away.  All values are binary64 numbers.
-/

namespace LuaGloss.Numeral

/-- The outcome of reading a literal, with the text that follows what was
read. -/
inductive Reading where
  | number (value : Binary64) (rest : Bytes)
  | malformed (byte : UInt8) (rest : Bytes)
  deriving DecidableEq, Repr

namespace Reading

def rest : Reading → Bytes
  | number _ rest => rest
  | malformed _ rest => rest

def content : Reading → Content
  | number value _ => .number value
  | malformed byte _ => .fault .malformedNumber byte

end Reading

def peek (s : Bytes) : UInt8 := s.headD 0

/-- A literal ends where no letter, digit or underscore follows.  It has no
value if it has no digits. -/
def finish (first : UInt8) (value? : Option Binary64) (rest : Bytes) : Reading :=
  if Byte.isNameByte (peek rest) then .malformed (peek rest) rest
  else
    match value? with
    | some value => .number value rest
    | none => .malformed first rest

/-- A point and the digits after it.  Two points in a row are no part of a
literal. -/
def fraction? (isDigit : UInt8 → Bool) : Bytes → Option (Bytes × Bytes)
  | Byte.dot :: rest =>
    if peek rest = Byte.dot then none
    else some (rest.takeWhile isDigit, rest.dropWhile isDigit)
  | _ => none

/-- The digits of an exponent.  Beyond five of them the value is out of any
range, and the rest adds nothing. -/
def exponentValue (digits : Bytes) : Nat :=
  digits.foldl (fun n b => if n < 10000 then n * 10 + Byte.digitValue b else n) 0

inductive Exponent where
  | absent
  | present (value : Int) (rest : Bytes)
  | incomplete (rest : Bytes)

def exponent (letter : UInt8) : Bytes → Exponent
  | [] => .absent
  | b :: rest =>
    if Byte.toLower b = letter then
      let (negative, digits) :=
        match rest with
        | Byte.plus :: digits => (false, digits)
        | Byte.dash :: digits => (true, digits)
        | digits => (false, digits)
      if Byte.isDigit (peek digits) then
        let size : Int := exponentValue (digits.takeWhile Byte.isDigit)
        .present (if negative then -size else size) (digits.dropWhile Byte.isDigit)
      else .incomplete digits
    else .absent

def integerLimit : Nat := 0xFFFFFFFFFFFFFFFF

/-- Digits with an optional fraction and an optional exponent, as they stand in
a decimal or hexadecimal literal. -/
structure Scale where
  isDigit : UInt8 → Bool
  letter : UInt8
  /-- The value of the digits as an integer. -/
  whole : Bytes → Binary64
  /-- The value of all digits, scaled by the exponent and the number of digits
  after the point. -/
  scaled : (digits : Bytes) → (exponent : Int) → (places : Nat) → Binary64

def decimal : Scale where
  isDigit := Byte.isDigit
  letter := 101
  whole digits := Binary64.ofNat (Bytes.toNat 10 digits)
  scaled digits exponent places :=
    Binary64.ofDecimal (Bytes.toNat 10 digits) (exponent - places)

/-- Hexadecimal integers beyond 64 bits stand for the greatest of 64 bits. -/
def hexadecimal : Scale where
  isDigit := Byte.isHexDigit
  letter := 112
  whole digits := Binary64.ofNat (min (Bytes.toNat 16 digits) integerLimit)
  scaled digits exponent places :=
    Binary64.ofBinary (Bytes.toNat 16 digits) (exponent - 4 * places)

def Scale.value? (scale : Scale) (whole places : Bytes) (exponent : Int) :
    Option Binary64 :=
  if (whole ++ places).isEmpty then none
  else some (scale.scaled (whole ++ places) exponent places.length)

def Scale.read (scale : Scale) (first : UInt8) (s : Bytes) : Reading :=
  let whole := s.takeWhile scale.isDigit
  let rest := s.dropWhile scale.isDigit
  match fraction? scale.isDigit rest with
  | some (places, rest) =>
    match exponent scale.letter rest with
    | .absent => finish first (scale.value? whole places 0) rest
    | .present value rest => finish first (scale.value? whole places value) rest
    | .incomplete rest => .malformed (peek rest) rest
  | none =>
    if whole.isEmpty then .malformed (peek rest) rest
    else
      match exponent scale.letter rest with
      | .absent => finish first (some (scale.whole whole)) rest
      | .present value rest => finish first (scale.value? whole [] value) rest
      | .incomplete rest => .malformed (peek rest) rest

def readOctal (s : Bytes) : Reading :=
  let digits := s.takeWhile Byte.isOctalDigit
  finish Byte.zero
  (some (Binary64.ofNat (min (Bytes.toNat 8 digits) integerLimit)))
  (s.dropWhile Byte.isOctalDigit)

/-- Reads a literal from the front of a text that starts with a digit, or with a
point and a digit. -/
def read (s : Bytes) : Reading :=
  match s with
  | Byte.zero :: mark :: rest =>
    if Byte.toLower mark = 120 then hexadecimal.read Byte.zero rest
    else if Byte.toLower mark = 111 && Byte.isOctalDigit (peek rest) then
      readOctal rest
    else decimal.read Byte.zero s
  | _ => decimal.read (peek s) s

end LuaGloss.Numeral

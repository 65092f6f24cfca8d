import LuaGloss.Text.Bytes

/-!
# UTF-8

A byte string is read as a sequence of runes: well-formed sequences of one to
four bytes, and stray bytes that belong to none.  Surrogates, overlong forms and
code points above `10FFFF` are not well formed.
-/

namespace LuaGloss

inductive Rune where
  /-- A code point together with its well-formed encoding. -/
  | scalar (code : Nat) (bytes : Bytes)
  /-- A byte that begins no well-formed sequence. -/
  | stray (byte : UInt8)
  deriving DecidableEq, Repr

namespace Rune

def bytes : Rune → Bytes
  | .scalar _ bytes => bytes
  | .stray byte => [byte]

def isScalar : Rune → Bool
  | .scalar _ _ => true
  | .stray _ => false

def code : Rune → Nat
  | .scalar code _ => code
  | .stray _ => 0xFFFD

end Rune

namespace Utf8

def isTail (b : UInt8) : Bool := 0x80 ≤ b && b ≤ 0xBF

def two? (a b : UInt8) : Option Nat :=
  if 0xC2 ≤ a && a ≤ 0xDF && isTail b then
    some ((a.toNat - 0xC0) * 64 + (b.toNat - 0x80))
  else none

/-- The code point of a three-byte sequence; neither overlong nor a
surrogate. -/
def three? (a b c : UInt8) : Option Nat :=
  let code := (a.toNat - 0xE0) * 4096 + (b.toNat - 0x80) * 64 + (c.toNat - 0x80)
  if 0xE0 ≤ a && a ≤ 0xEF && isTail b && isTail c && 0x800 ≤ code
      && !(0xD800 ≤ code && code ≤ 0xDFFF) then some code
  else none

/-- The code point of a four-byte sequence; neither overlong nor above
`10FFFF`. -/
def four? (a b c d : UInt8) : Option Nat :=
  let code := (a.toNat - 0xF0) * 262144 + (b.toNat - 0x80) * 4096
    + (c.toNat - 0x80) * 64 + (d.toNat - 0x80)
  if 0xF0 ≤ a && a ≤ 0xF4 && isTail b && isTail c && isTail d && 0x10000 ≤ code
      && code ≤ 0x10FFFF then some code
  else none

def first (a : UInt8) (r : Bytes) : Rune :=
  if a < 0x80 then .scalar a.toNat [a]
  else
    match r with
    | [] => .stray a
    | b :: r₁ =>
      match two? a b with
      | some code => .scalar code [a, b]
      | none =>
        match r₁ with
        | [] => .stray a
        | c :: r₂ =>
          match three? a b c with
          | some code => .scalar code [a, b, c]
          | none =>
            match r₂ with
            | [] => .stray a
            | d :: _ =>
              match four? a b c d with
              | some code => .scalar code [a, b, c, d]
              | none => .stray a

/-- The runes of a text whose first `skip` bytes belong to a rune already
read. -/
def runesAfter : (skip : Nat) → Bytes → List Rune
  | _, [] => []
  | skip + 1, _ :: r => runesAfter skip r
  | 0, a :: r =>
    let rune := first a r
    rune :: runesAfter (rune.bytes.length - 1) r

def runes (s : Bytes) : List Rune := runesAfter 0 s

def isValid (s : Bytes) : Bool := (runes s).all Rune.isScalar

def encode (code : Nat) : Bytes :=
  if code < 0x80 then [code.toUInt8]
  else if code < 0x800 then
  [(0xC0 + code / 64).toUInt8, (0x80 + code % 64).toUInt8]
  else if code < 0x10000 then
    [(0xE0 + code / 4096).toUInt8, (0x80 + code / 64 % 64).toUInt8,
      (0x80 + code % 64).toUInt8]
  else
    [(0xF0 + code / 262144).toUInt8, (0x80 + code / 4096 % 64).toUInt8,
      (0x80 + code / 64 % 64).toUInt8, (0x80 + code % 64).toUInt8]

end Utf8

end LuaGloss

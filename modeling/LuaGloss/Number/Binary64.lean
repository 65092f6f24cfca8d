import LuaGloss.Text.Bytes

/-!
# Binary64 numbers

Numeric literals denote IEEE binary64 values.  They are kept as bit patterns and
computed in exact arithmetic on natural numbers, by one rule: a non-negative
rational goes to the nearest representable value, and a tie to the one whose
significand is even.  A value with significand `m` and exponent `e` is `m * 2 ^
e`.
-/

namespace LuaGloss

structure Binary64 where
  bits : Nat
  deriving DecidableEq, Repr, Inhabited

namespace Binary64

def zero : Binary64 := ⟨0⟩

def leadingBit : Nat := 0x10000000000000

def infinity : Binary64 := ⟨2047 * leadingBit⟩

def isInfinite (x : Binary64) : Bool := x.bits == infinity.bits

def minExponent : Int := -1074

variable (num den : Nat)

/-- The quotient rounded to the nearest integer, a tie to the even neighbour. -/
def divNearest : Nat :=
  let quotient := num / den
  let remainder := num % den
  if 2 * remainder < den then quotient
  else if den < 2 * remainder then quotient + 1
  else quotient + quotient % 2

def unscale (exponent : Int) : Nat × Nat :=
  (num * Nat.pow 2 (-exponent).toNat, den * Nat.pow 2 exponent.toNat)

/-- The exponent at which `num / den` has a significand of 53 bits, or the least
one. -/
def exponentOf : Int :=
  let guess : Int := (Nat.log2 num : Int) - (Nat.log2 den : Int) - 52
  let (n, d) := unscale num den guess
  max minExponent (if n < leadingBit * d then guess - 1 else guess)

def ofRatio : Binary64 :=
  if num = 0 then zero
  else
    let exponent := exponentOf num den
    let (n, d) := unscale num den exponent
    let bits := (exponent - minExponent).toNat * leadingBit + divNearest n d
    if infinity.bits ≤ bits then infinity else ⟨bits⟩

def ofNat (n : Nat) : Binary64 := ofRatio n 1

/-- The value nearest to `significand * 2 ^ exponent`.  Far outside the range of
the format the answer is known without computing the power. -/
def ofBinary (significand : Nat) (exponent : Int) : Binary64 :=
  if significand = 0 then zero
  else
    let size := (Nat.log2 significand : Int) + exponent
    if 1100 < size then infinity
    else if size < -1200 then zero
    else ofRatio (significand * Nat.pow 2 exponent.toNat)
      (Nat.pow 2 (-exponent).toNat)

def ofDecimal (significand : Nat) (exponent : Int) : Binary64 :=
  if significand = 0 then zero
  else
    let size := ((Nat.toDigits 10 significand).length : Int) + exponent
    if 400 < size then infinity
    else if size < -400 then zero
    else ofRatio (significand * Nat.pow 10 exponent.toNat)
      (Nat.pow 10 (-exponent).toNat)

def parts (x : Binary64) : Nat × Int :=
  let field : Nat := x.bits / leadingBit
  let fraction := x.bits % leadingBit
  if field = 0 then (fraction, minExponent)
  else (leadingBit + fraction, Int.ofNat field - 1 + minExponent)

def hex (x : Binary64) : Bytes := Bytes.hex 16 x.bits

end Binary64

end LuaGloss

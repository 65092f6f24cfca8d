import LuaGloss.Number.Binary64

/-!
# Shortest decimal text

A number is printed with the fewest significant digits that read back as the
same value, and among those with the digits nearest to it.  The format's own
decisions stand in one place at the end: when the exponent is written and how.
-/

namespace LuaGloss

namespace Binary64

/-- The decimal `digits * 10 ^ exponent`. -/
structure Decimal where
  digits : Nat
  exponent : Int
  deriving DecidableEq, Repr

def unscale10 (num den : Nat) (exponent : Int) : Nat × Nat :=
  (num * Nat.pow 10 (-exponent).toNat, den * Nat.pow 10 exponent.toNat)

/-- The number of decimal digits before the point of `num / den`; zero or less
if it is below one tenth. -/
def magnitude10 (num den : Nat) : Int :=
  let guess : Int := ((Nat.toDigits 10 num).length : Int) -
    ((Nat.toDigits 10 den).length : Int)
  let (n, d) := unscale10 num den guess
  if n < d then guess else guess + 1

/-- The decimal with `count` digits that reads back as `x`, if one of the two
around `num / den` does; of two the nearer. -/
def decimalOf? (x : Binary64) (num den count : Nat) : Option Decimal :=
  let exponent := magnitude10 num den - count
  let (n, d) := unscale10 num den exponent
  let readsBack (digits : Nat) : Bool := ofDecimal digits exponent == x
  let below := n / d
  let nearer := divNearest n d
  if readsBack nearer then some ⟨nearer, exponent⟩
  else if readsBack below then some ⟨below, exponent⟩
  else if readsBack (below + 1) then some ⟨below + 1, exponent⟩
  else none

def shortestFrom (x : Binary64) (num den : Nat) : (tries count : Nat) → Decimal
  | 0, _ => ⟨0, 0⟩
  | tries + 1, count =>
    match decimalOf? x num den count with
    | some decimal => decimal
    | none => shortestFrom x num den tries (count + 1)

def shortest (x : Binary64) : Decimal :=
  let (significand, exponent) := x.parts
  if significand = 0 then ⟨0, 0⟩
  else shortestFrom x (significand * Nat.pow 2 exponent.toNat)
  (Nat.pow 2 (-exponent).toNat) 17 1

def writesExponent (exponent : Int) : Bool := exponent < -4 || 6 ≤ exponent

def exponentText (exponent : Int) : Bytes :=
  utf8 "e" ++ (if exponent < 0 then utf8 "-" else utf8 "+")
    ++ Bytes.padLeft 2 Byte.zero (Bytes.ofNat exponent.natAbs)

def text (x : Binary64) : Bytes :=
  if x.isInfinite then utf8 "+Inf"
  else
    let decimal := x.shortest
    let digits := Bytes.trimRight (· == Byte.zero) (Bytes.ofNat decimal.digits)
    if digits.isEmpty then utf8 "0"
    else
      let point : Int :=
        ((Bytes.ofNat decimal.digits).length : Int) + decimal.exponent
      if writesExponent (point - 1) then
        let fraction := digits.drop 1
        digits.take 1 ++
          (if fraction.isEmpty then [] else Byte.dot :: fraction) ++
          exponentText (point - 1)
      else if point ≤ 0 then
        utf8 "0." ++ List.replicate (-point).toNat Byte.zero ++ digits
      else
        let whole := digits.take point.toNat
        let fraction := digits.drop point.toNat
        whole ++ List.replicate (point.toNat - whole.length) Byte.zero
          ++ (if fraction.isEmpty then [] else Byte.dot :: fraction)

end Binary64

end LuaGloss

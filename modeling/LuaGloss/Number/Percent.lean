import LuaGloss.Number.Binary64

/-!
# Percentages

A share is computed in binary64 arithmetic and then written with one decimal
place.  Both steps round to the nearest value and a tie to the even one, so that
`1 / 16` is written as `6.2`.
-/

namespace LuaGloss

namespace Binary64

def scale (x : Binary64) (factor : Nat) : Binary64 :=
  let (significand, exponent) := x.parts
  ofBinary (significand * factor) exponent

def tenths (x : Binary64) : Nat :=
  let (significand, exponent) := x.parts
  divNearest (10 * significand * Nat.pow 2 exponent.toNat)
  (Nat.pow 2 (-exponent).toNat)

end Binary64

def percentText (part whole : Nat) : Bytes :=
  let tenths := ((Binary64.ofRatio part whole).scale 100).tenths
  Bytes.ofNat (tenths / 10) ++ utf8 "." ++ Bytes.ofNat (tenths % 10)

end LuaGloss

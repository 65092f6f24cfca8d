import LuaGloss.Text.Bytes

/-!
# Base64

Three bytes are written as four letters of six bits each.  The last group may
have one or two bytes, and is then filled up with equals signs.  Line breaks do
not count.
-/

namespace LuaGloss.Base64

def bits? (b : UInt8) : Option Nat :=
  if Byte.isUpper b then some (b.toNat - 65)
  else if Byte.isLower b then some (b.toNat - 71)
  else if Byte.isDigit b then some (b.toNat + 4)
  else if b = Byte.plus then some 62
  else if b = Byte.slash then some 63
  else none

def bytesOf (count : Nat) (letters : List Nat) : Bytes :=
  let value := letters.foldl (fun value bits => value * 64 + bits) 0
  [(value / 65536).toUInt8, (value / 256).toUInt8, value.toUInt8].take count

/-- Decodes whole groups.  Only the last group may be filled up; bits that are
left over in it do not count. -/
def decodeGroups : Bytes → Option Bytes
  | [] => some []
  | [a, b, Byte.equals, Byte.equals] =>
    do return bytesOf 1 [← bits? a, ← bits? b, 0, 0]
  | [a, b, c, Byte.equals] =>
    do return bytesOf 2 [← bits? a, ← bits? b, ← bits? c, 0]
  | a :: b :: c :: d :: rest => do
    let group := bytesOf 3 [← bits? a, ← bits? b, ← bits? c, ← bits? d]
    return group ++ (← decodeGroups rest)
  | _ => none

def decode (s : Bytes) : Option Bytes :=
  decodeGroups (s.filter fun b => b != Byte.lineFeed && b != Byte.carriageReturn)

end LuaGloss.Base64

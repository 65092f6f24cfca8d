import LuaGloss.Text.Utf8

/-!
# White space and trimming

Descriptions are trimmed of everything that Unicode calls white space, so that a
line of no-break spaces counts as empty.
-/

namespace LuaGloss

def isBlankCode (code : Nat) : Bool :=
  (9 ≤ code && code ≤ 13) || code == 0x20 || code == 0x85 || code == 0xA0 ||
    code == 0x1680
    || (0x2000 ≤ code && code ≤ 0x200A) || code == 0x2028 || code == 0x2029 ||
      code == 0x202F
    || code == 0x205F || code == 0x3000

def Rune.isBlank : Rune → Bool
  | .scalar code _ => isBlankCode code
  | .stray _ => false

namespace Bytes

def isBlank (s : Bytes) : Bool := (Utf8.runes s).all Rune.isBlank

def trim (s : Bytes) : Bytes :=
  let kept :=
    ((Utf8.runes s).dropWhile Rune.isBlank).reverse.dropWhile Rune.isBlank
  kept.reverse.flatMap Rune.bytes

end Bytes

end LuaGloss

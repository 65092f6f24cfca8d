import LuaGloss.Text.Byte

/-!
# Byte strings

A text is a list of bytes.  The operations here are the few that the rest of the
library needs: literals, searching, cutting, trimming and numerals.
-/

namespace LuaGloss

abbrev Bytes := List UInt8

def utf8 (s : String) : Bytes := s.toUTF8.data.toList

namespace Bytes

def cut (sep : Bytes) : Bytes → Option (Bytes × Bytes)
  | [] => if sep.isEmpty then some ([], []) else none
  | b :: rest =>
    match sep.isPrefixOf? (b :: rest) with
    | some after => some ([], after)
    | none => (cut sep rest).map fun (before, after) => (b :: before, after)

def contains (s part : Bytes) : Bool := (cut part s).isSome

/-- The maximal pieces between separators; one more than there are
separators. -/
def splitOn (sep : UInt8) : Bytes → List Bytes
  | [] => [[]]
  | b :: rest =>
    if b = sep then [] :: splitOn sep rest
    else
      match splitOn sep rest with
      | [] => [[b]]
      | piece :: pieces => (b :: piece) :: pieces

def join (sep : Bytes) (parts : List Bytes) : Bytes := sep.intercalate parts

def trimLeft (p : UInt8 → Bool) (s : Bytes) : Bytes := s.dropWhile p

def trimRight (p : UInt8 → Bool) (s : Bytes) : Bytes :=
  (s.reverse.dropWhile p).reverse

def dropPrefix (pre s : Bytes) : Bytes := (pre.isPrefixOf? s).getD s

def dropSuffix (suf s : Bytes) : Bytes :=
  if suf.isSuffixOf s then s.take (s.length - suf.length) else s

def slice (s : Bytes) (start stop : Nat) : Bytes :=
  (s.drop start).take (stop - start)

def padLeft (width : Nat) (fill : UInt8) (s : Bytes) : Bytes :=
  List.replicate (width - s.length) fill ++ s

def padRight (width : Nat) (fill : UInt8) (s : Bytes) : Bytes :=
  s ++ List.replicate (width - s.length) fill

def ofNat (n : Nat) : Bytes := (Nat.toDigits 10 n).map Char.toUInt8

def ofInt : Int → Bytes
  | .ofNat n => ofNat n
  | .negSucc n => Byte.dash :: ofNat (n + 1)

/-- A number in lower-case hexadecimal digits, with zeros in front up to
`width`. -/
def hex (width n : Nat) : Bytes :=
  padLeft width Byte.zero ((Nat.toDigits 16 n).map Char.toUInt8)

def toNat (radix : Nat) (digits : Bytes) : Nat :=
  digits.foldl (fun n b => n * radix + Byte.digitValue b) 0

def le : Bytes → Bytes → Bool
  | [], _ => true
  | _ :: _, [] => false
  | a :: s, b :: t => if a = b then le s t else a ≤ b

end Bytes

end LuaGloss

import LuaGloss.Text.Printable

/-!
# Quoted text

A text between quotes in which everything that cannot be printed is written as a
backslash escape, so that the quoted form is one printable line of valid UTF-8.
-/

namespace LuaGloss

namespace Rune

def controlLetter? (code : Nat) : Option Char :=
  match code with
  | 7 => some 'a'
  | 8 => some 'b'
  | 9 => some 't'
  | 10 => some 'n'
  | 11 => some 'v'
  | 12 => some 'f'
  | 13 => some 'r'
  | _ => none

def quoted (quote : Nat) : Rune → Bytes
  | .stray byte => utf8 "\\x" ++ Bytes.hex 2 byte.toNat
  | .scalar code bytes =>
    if code = quote || code = 0x5C then Byte.backslash :: bytes
    else if isPrintable code then bytes
    else
      match controlLetter? code with
      | some letter => [Byte.backslash, letter.toUInt8]
      | none =>
        if code < 0x80 then utf8 "\\x" ++ Bytes.hex 2 code
        else if code < 0x10000 then utf8 "\\u" ++ Bytes.hex 4 code
        else utf8 "\\U" ++ Bytes.hex 8 code

end Rune

def Bytes.quoted (s : Bytes) : Bytes :=
  Byte.quote :: ((Utf8.runes s).flatMap (Rune.quoted 0x22) ++ [Byte.quote])

def Byte.quoted (b : UInt8) : Bytes :=
  Byte.apostrophe ::
    (Rune.quoted 0x27 (.scalar b.toNat (Utf8.encode b.toNat)) ++ [Byte.apostrophe])

end LuaGloss

/-!
# Bytes and their classes

Source text reaches the library as bytes, and nothing promises that they form
valid UTF-8.  This module names the bytes that the grammars mention, so that
they can stand in patterns, and the ASCII classes that both scanners use.
-/

namespace LuaGloss.Byte

@[match_pattern] abbrev tab : UInt8 := 9
@[match_pattern] abbrev lineFeed : UInt8 := 10
@[match_pattern] abbrev carriageReturn : UInt8 := 13
@[match_pattern] abbrev space : UInt8 := 32
@[match_pattern] abbrev bang : UInt8 := 33
@[match_pattern] abbrev quote : UInt8 := 34
@[match_pattern] abbrev hash : UInt8 := 35
@[match_pattern] abbrev percent : UInt8 := 37
@[match_pattern] abbrev ampersand : UInt8 := 38
@[match_pattern] abbrev apostrophe : UInt8 := 39
@[match_pattern] abbrev star : UInt8 := 42
@[match_pattern] abbrev plus : UInt8 := 43
@[match_pattern] abbrev comma : UInt8 := 44
@[match_pattern] abbrev dash : UInt8 := 45
@[match_pattern] abbrev dot : UInt8 := 46
@[match_pattern] abbrev slash : UInt8 := 47
@[match_pattern] abbrev zero : UInt8 := 48
@[match_pattern] abbrev colon : UInt8 := 58
@[match_pattern] abbrev less : UInt8 := 60
@[match_pattern] abbrev equals : UInt8 := 61
@[match_pattern] abbrev greater : UInt8 := 62
@[match_pattern] abbrev question : UInt8 := 63
@[match_pattern] abbrev at_ : UInt8 := 64
@[match_pattern] abbrev openBracket : UInt8 := 91
@[match_pattern] abbrev backslash : UInt8 := 92
@[match_pattern] abbrev closeBracket : UInt8 := 93
@[match_pattern] abbrev underscore : UInt8 := 95
@[match_pattern] abbrev grave : UInt8 := 96
@[match_pattern] abbrev openBrace : UInt8 := 123
@[match_pattern] abbrev bar : UInt8 := 124
@[match_pattern] abbrev closeBrace : UInt8 := 125

variable (b : UInt8)

def isDigit : Bool := 48 ≤ b && b ≤ 57

def isOctalDigit : Bool := 48 ≤ b && b ≤ 55

def isUpper : Bool := 65 ≤ b && b ≤ 90

def isLower : Bool := 97 ≤ b && b ≤ 122

def isHexDigit : Bool :=
  isDigit b || (97 ≤ b && b ≤ 102) || (65 ≤ b && b ≤ 70)

def isLetter : Bool := isLower b || isUpper b

def isNameStart : Bool := isLetter b || b == underscore

def isNameByte : Bool := isNameStart b || isDigit b

/-- White space between tokens: space, tab, line feed, carriage return, vertical
tab, form feed. -/
def isBlank : Bool := b == space || (9 ≤ b && b ≤ 13)

def isIndent : Bool := b == space || b == tab

def digitValue : Nat :=
  if isDigit b then b.toNat - 48
  else if isLower b then b.toNat - 87
  else b.toNat - 55

def toLower : UInt8 := if isUpper b then b + 32 else b

end LuaGloss.Byte

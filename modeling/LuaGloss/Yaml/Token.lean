import LuaGloss.Yaml.Scalar

/-!
# YAML tokens

The tokens that consist of a word and not only of an indicator: anchors and
aliases, tags and directives.
-/

namespace LuaGloss.Yaml

inductive Token where
  | streamEnd
  | documentStart
  | documentEnd
  | blockSequenceStart
  | blockMappingStart
  | blockEnd
  | flowSequenceStart
  | flowSequenceEnd
  | flowMappingStart
  | flowMappingEnd
  | blockEntry
  | flowEntry
  | key
  | value
  | alias_ (name : Bytes)
  | anchor (name : Bytes)
  /-- A tag.  If it has a handle, the suffix continues what the handle stands
  for. -/
  | tag (handle suffix : Bytes)
  | versionDirective (major minor : Nat)
  /-- A directive that says what a handle stands for. -/
  | tagDirective (handle meaning : Bytes)
  | scalar (isPlain : Bool) (text : Bytes)
  deriving DecidableEq, Repr

def Token.isDirective : Token → Bool
  | .versionDirective _ _ | .tagDirective _ _ => true
  | _ => false

open LuaGloss.Yaml.Cursor

def endsAnchor (code : Nat) : Bool :=
  isGap code || code == codeOf '?' || code == codeOf ':' || code ==
    codeOf ',' || code == codeOf ']' || code == 0x7D
    || code == codeOf '%' || code == codeOf '@' || code == 0x60

def anchorName : CursorM Bytes := do
  skip
  let name ← takeWhile isNameCode
  if name.isEmpty || !endsAnchor (← peek) then throw .unexpectedCharacter
  return name

def isTagCode (code : Nat) : Bool :=
  isNameCode code || [';', '/', '?', ':', '@', '&', '=', '+', '$', '.', ',',
    '!', '~', '*', '\'', '(', ')', '[', ']',
    '%'].any (codeOf · == code)

def tagOctet : CursorM UInt8 := do
  need 3
  match (← get).ahead with
  | mark :: high :: low :: _ =>
    unless mark = codeOf '%' && isHexDigit high && isHexDigit low do throw .badTag
    skip
    skip
    skip
    return (digitValue high * 16 + digitValue low).toUInt8
  | _ => throw .badTag

def tailLength? (b : UInt8) : Option Nat :=
  if b < 0x80 then some 0
  else if b < 0xC0 then none
  else if b < 0xE0 then some 1
  else if b < 0xF0 then some 2
  else if b < 0xF8 then some 3
  else none

def escapedCharacter : CursorM Bytes := do
  let first ← tagOctet
  match tailLength? first with
  | none => throw .badTag
  | some count =>
    let tail ← (List.replicate count ()).mapM fun _ => tagOctet
    unless tail.all Utf8.isTail do throw .badTag
    return first :: tail

def tagTextWithin : (fuel : Nat) → CursorM Bytes
  | 0 => return []
  | fuel + 1 => do
    need 1
    let code ← peek
    if isTagCode code then
      let character ← if code = codeOf '%' then escapedCharacter else take
      return character ++ (← tagTextWithin fuel)
    else return []

def tagText : CursorM Bytes := do
  let text ← tagTextWithin (← limit_)
  if text.isEmpty then throw .badTag
  return text

/-- An exclamation mark, the name after it, and the exclamation mark that may
follow. -/
def tagHandle : CursorM Bytes := do
  need 1
  unless (← peek) = codeOf '!' do throw .badTag
  let mark ← take
  let name ← takeWhile isNameCode
  let end_ ← if (← peek) = codeOf '!' then take else pure []
  return mark ++ name ++ end_

def isHandle (text : Bytes) : Bool :=
  1 < text.length && text.getLast? == some Byte.bang

/-- A tag from its exclamation mark on.  A single exclamation mark is a tag
without a handle. -/
def tag : CursorM Token := do
  need 2
  let token ←
    if (← peekAt 1) = codeOf '<' then
      skip
      skip
      let text ← tagText
      unless (← peek) = codeOf '>' do throw .badTag
      skip
      pure (Token.tag [] text)
    else
      let handle ← tagHandle
      if isHandle handle then pure (Token.tag handle (← tagText))
      else
        let suffix := handle.tail ++ (← tagTextWithin (← limit_))
        pure (if suffix.isEmpty then .tag [] [Byte.bang] else
          .tag [Byte.bang] suffix)
  need 1
  unless isGap (← peek) do throw .badTag
  return token

def versionDigits : Nat := 2

def versionNumber : CursorM Nat := do
  let digits ← takeWhile isDigit
  if digits.isEmpty || versionDigits < digits.length then throw .badDirective
  return Bytes.toNat 10 digits

def versionDirective : CursorM Token := do
  skipWhile isBlank
  let major ← versionNumber
  unless (← peek) = codeOf '.' do throw .badDirective
  skip
  return .versionDirective major (← versionNumber)

def tagDirective : CursorM Token := do
  skipWhile isBlank
  let handle ← tagHandle
  unless handle = [Byte.bang] || isHandle handle do throw .badDirective
  need 1
  unless isBlank (← peek) do throw .badDirective
  skipWhile isBlank
  let meaning ← tagText
  need 1
  unless isGap (← peek) do throw .badDirective
  return .tagDirective handle meaning

/-- A directive from its percent sign on.  It takes a line, on which nothing but
a comment may follow. -/
def directive : CursorM Token := do
  skip
  let name ← takeWhile isNameCode
  unless isGap (← peek) do throw .badDirective
  let token ←
    if name = utf8 "YAML" then versionDirective
    else if name = utf8 "TAG" then tagDirective
    else throw .badDirective
  skipLineRest .badDirective
  return token

end LuaGloss.Yaml

import LuaGloss.Text.Utf8

/-!
# JSON

Values as they are written for other programs: one entry a line, two blanks for
every level.  The fields of an object keep their order.  A text is written so
that it can also stand in a markup document.
-/

namespace LuaGloss

inductive JsonValue where
  | null
  | bool (value : Bool)
  | number (value : Nat)
  | text (value : Bytes)
  | array (items : List JsonValue)
  | object (fields : List (Bytes × JsonValue))

namespace JsonValue

def controlNames : List (Nat × Bytes) :=
  [(8, utf8 "\\b"), (9, utf8 "\\t"), (10, utf8 "\\n"), (12, utf8 "\\f"),
    (13, utf8 "\\r")]

/-- The characters with a meaning in markup, and the two that end a line in
scripts. -/
def isHidden (code : Nat) : Bool :=
  code == 0x26 || code == 0x3C || code == 0x3E || code == 0x2028 || code == 0x2029

/-- How a rune is written in a text.  A stray byte counts as the replacement
character. -/
def runeText (rune : Rune) : Bytes :=
  if rune.code = 0x22 || rune.code = 0x5C then Byte.backslash :: rune.bytes
  else
    match controlNames.lookup rune.code with
    | some name => name
    | none =>
      if rune.code < 0x20 || isHidden rune.code then
        utf8 "\\u" ++ Bytes.hex 4 rune.code
      else Utf8.encode rune.code

def quote (s : Bytes) : Bytes :=
  Byte.quote :: ((Utf8.runes s).flatMap runeText ++ [Byte.quote])

def lineBreak (depth : Nat) : Bytes :=
  Byte.lineFeed :: List.replicate (2 * depth) Byte.space

def enclose (depth : Nat) (first last : UInt8) (entries : List Bytes) : Bytes :=
  if entries.isEmpty then [first, last]
  else
    let breaks := lineBreak (depth + 1)
    first :: (breaks ++ Bytes.join (Byte.comma :: breaks) entries ++
      lineBreak depth ++ [last])

mutual

def render (depth : Nat) : JsonValue → Bytes
  | .null => utf8 "null"
  | .bool true => utf8 "true"
  | .bool false => utf8 "false"
  | .number value => Bytes.ofNat value
  | .text value => quote value
  | .array items =>
    enclose depth Byte.openBracket Byte.closeBracket
      (renderItems (depth + 1) items)
  | .object fields =>
    enclose depth Byte.openBrace Byte.closeBrace (renderFields (depth + 1) fields)

def renderItems (depth : Nat) : List JsonValue → List Bytes
  | [] => []
  | item :: items => render depth item :: renderItems depth items

def renderFields (depth : Nat) : List (Bytes × JsonValue) → List Bytes
  | [] => []
  | (name, value) :: fields =>
    (quote name ++ utf8 ": " ++ render depth value) :: renderFields depth fields

end

end JsonValue

end LuaGloss

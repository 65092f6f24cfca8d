import LuaGloss.Text.Bytes

/-!
# Tokens of the comment language

The text of a structured comment falls into commands, new lines with the
indentation after them, group braces and runs of plain text.  Every byte of the
text belongs to exactly one token, and the source text of each can be given
back.

A command starts with a backslash or an at sign and is followed by a letter.  It
is not recognised right after a word, so that addresses and file names stay
text.
-/

namespace LuaGloss

/-- The commands that the comment language knows. -/
inductive Command where
  | import_ | enum | enumValue | struct | union | class_ | alias_ | variable_
  | field | function | overload | property
  | event | typedef | namespace_ | group | inGroup | subGroup | title | brief
  | see | footnote
  deriving DecidableEq, Repr

namespace Command

def all : List Command :=
  [import_, enum, enumValue, struct, union, class_, alias_, variable_, field,
    function, overload, property, event,
    typedef, namespace_, group, inGroup, subGroup, title, brief, see, footnote]

def name : Command → Bytes
  | import_ => utf8 "import"
  | enum => utf8 "enum"
  | enumValue => utf8 "enumvalue"
  | struct => utf8 "struct"
  | union => utf8 "union"
  | class_ => utf8 "class"
  | alias_ => utf8 "alias"
  | variable_ => utf8 "variable"
  | field => utf8 "field"
  | function => utf8 "function"
  | overload => utf8 "overload"
  | property => utf8 "property"
  | event => utf8 "event"
  | typedef => utf8 "typedef"
  | namespace_ => utf8 "namespace"
  | group => utf8 "group"
  | inGroup => utf8 "ingroup"
  | subGroup => utf8 "subgroup"
  | title => utf8 "title"
  | brief => utf8 "brief"
  | see => utf8 "see"
  | footnote => utf8 "footnote"

def ofName? (name : Bytes) : Option Command := all.find? (·.name == name)

def text (command : Command) : Bytes := Byte.backslash :: command.name

def isTarget : Command → Bool
  | enum | enumValue | struct | union | class_ | alias_ | variable_ | field
  | function | overload | property | event
  | typedef | namespace_ => true
  | import_ | group | inGroup | subGroup | title | brief | see | footnote => false

end Command

inductive CommentTokenKind where
  | endOfText
  | text
  | newLine
  | otherCommand
  | openBrace
  | closeBrace
  | command (c : Command)
  deriving DecidableEq, Repr

namespace CommentTokenKind

def name : CommentTokenKind → Bytes
  | endOfText => utf8 "eof"
  | text => utf8 "text"
  | newLine => utf8 "new-line"
  | otherCommand => utf8 "other-command"
  | openBrace => utf8 "@\x7b"
  | closeBrace => utf8 "@\x7d"
  | command c => c.text

def isTarget : CommentTokenKind → Bool
  | command c => c.isTarget
  | _ => false

def numbered : List CommentTokenKind :=
  [endOfText, text, newLine, otherCommand, openBrace, closeBrace] ++
    Command.all.map command

def ofNumber? : Int → Option CommentTokenKind
  | .ofNat n => numbered[n]?
  | .negSucc _ => none

end CommentTokenKind

inductive CommentToken where
  | endOfText
  | text (s : Bytes)
  /-- A line break and the indentation that follows it. -/
  | newLine (lineBreak indent : Bytes)
  | openBrace
  | closeBrace
  /-- A known command after its mark, a backslash or an at sign. -/
  | command (mark : UInt8) (c : Command)
  | other (mark : UInt8) (name : Bytes)
  deriving DecidableEq, Repr

namespace CommentToken

def kind : CommentToken → CommentTokenKind
  | endOfText => .endOfText
  | text _ => .text
  | newLine _ _ => .newLine
  | openBrace => .openBrace
  | closeBrace => .closeBrace
  | command _ c => .command c
  | other _ _ => .otherCommand

/-- What the token says: the text, the indentation or the name of the
command. -/
def value : CommentToken → Bytes
  | text s => s
  | newLine _ indent => indent
  | command _ c => c.name
  | other _ name => name
  | endOfText | openBrace | closeBrace => []

def raw : CommentToken → Bytes
  | endOfText => []
  | text s => s
  | newLine lineBreak indent => lineBreak ++ indent
  | openBrace => utf8 "@\x7b"
  | closeBrace => utf8 "@\x7d"
  | command mark c => mark :: c.name
  | other mark name => mark :: name

def isCommandByte (b : UInt8) : Bool :=
  Byte.isLetter b || Byte.isDigit b || b == Byte.underscore

def isWordByte (b : UInt8) : Bool := isCommandByte b || b == Byte.dot

def startsLine : Bytes → Bool
  | Byte.lineFeed :: _ => true
  | Byte.carriageReturn :: Byte.lineFeed :: _ => true
  | _ => false

/-- Whether a command or a group brace stands at the front, where `before` is
the byte in front of it. -/
def startsCommand (before : Option UInt8) : Bytes → Bool
  | mark :: next :: _ =>
    (mark == Byte.backslash || mark == Byte.at_) && !before.any isWordByte
      && (Byte.isLetter next ||
        (mark == Byte.at_ && (next == Byte.openBrace || next == Byte.closeBrace)))
  | _ => false

def textRun (before : UInt8) : Bytes → Bytes
  | [] => []
  | b :: rest =>
    if startsLine (b :: rest) || startsCommand (some before) (b :: rest) then []
    else b :: textRun b rest

def ofMark (mark : UInt8) (rest : Bytes) : CommentToken × Nat :=
  let name := rest.takeWhile isCommandByte
  match Command.ofName? name with
  | some c => (command mark c, name.length)
  | none => (other mark name, name.length)

/-- The token at the front of `b :: rest`, and how many bytes it has beyond the
first. -/
def front (before : Option UInt8) (b : UInt8) (rest : Bytes) :
    CommentToken × Nat :=
  if startsLine (b :: rest) then
    let lineBreak := if b = Byte.lineFeed then [b] else [b, Byte.lineFeed]
    let indent := (rest.drop (lineBreak.length - 1)).takeWhile Byte.isIndent
    (newLine lineBreak indent, lineBreak.length - 1 + indent.length)
  else if startsCommand before (b :: rest) then
    match b, rest with
    | Byte.at_, Byte.openBrace :: _ => (openBrace, 1)
    | Byte.at_, Byte.closeBrace :: _ => (closeBrace, 1)
    | mark, rest => ofMark mark rest
  else
    let run := textRun b rest
    (text (b :: run), run.length)

/-- The tokens of a text whose first `skip` bytes belong to a token already
read. -/
def tokensAfter :
    (skip : Nat) → (before : Option UInt8) → Bytes → List CommentToken
  | _, _, [] => [endOfText]
  | skip + 1, _, b :: rest => tokensAfter skip (some b) rest
  | 0, before, b :: rest =>
    let (token, more) := front before b rest
    token :: tokensAfter more (some b) rest

/-- The tokens of a comment text; the last one, and only it, marks the end. -/
def tokenize (s : Bytes) : List CommentToken := tokensAfter 0 none s

end CommentToken

end LuaGloss

import LuaGloss.Number.Binary64

/-!
# Tokens

The vocabulary of Lua source text: reserved words, symbols, names, literals and
structured comments, each with the place where it stands.  Plain comments and
white space are no tokens.  Structured comments travel on a channel of their
own, so that the grammar never sees them.
-/

namespace LuaGloss

/-- The place of a token: byte offset and length, line and column.  Lines and
columns count from one, columns count bytes. -/
structure Pos where
  offset : Nat
  length : Nat
  line : Nat
  col : Nat
  deriving DecidableEq, Repr, Inhabited

namespace Pos

def none : Pos := ⟨0, 0, 0, 0⟩

def stop (p : Pos) : Nat := p.offset + p.length

def text (p : Pos) : Bytes := Bytes.ofNat p.line ++ utf8 ":" ++ Bytes.ofNat p.col

end Pos

inductive Keyword where
  | goto_ | break_ | return_ | do_ | end_ | while_ | repeat_ | until_ | if_
  | then_ | elseif_ | else_
  | for_ | function_ | local_ | in_ | nil_ | false_ | true_ | or_ | and_ | not_
  deriving DecidableEq, Repr

namespace Keyword

def all : List Keyword :=
  [goto_, break_, return_, do_, end_, while_, repeat_, until_, if_, then_,
    elseif_, else_,
    for_, function_, local_, in_, nil_, false_, true_, or_, and_, not_]

def text : Keyword → Bytes
  | goto_ => utf8 "goto"
  | break_ => utf8 "break"
  | return_ => utf8 "return"
  | do_ => utf8 "do"
  | end_ => utf8 "end"
  | while_ => utf8 "while"
  | repeat_ => utf8 "repeat"
  | until_ => utf8 "until"
  | if_ => utf8 "if"
  | then_ => utf8 "then"
  | elseif_ => utf8 "elseif"
  | else_ => utf8 "else"
  | for_ => utf8 "for"
  | function_ => utf8 "function"
  | local_ => utf8 "local"
  | in_ => utf8 "in"
  | nil_ => utf8 "nil"
  | false_ => utf8 "false"
  | true_ => utf8 "true"
  | or_ => utf8 "or"
  | and_ => utf8 "and"
  | not_ => utf8 "not"

def ofText? (word : Bytes) : Option Keyword := all.find? (·.text == word)

end Keyword

inductive Symbol where
  | doubleColon | ellipsis | lessEqual | greaterEqual | notEqual | equal
  | shiftLeft | shiftRight | concat | floorDiv
  | plus | minus | star | slash | percent | caret | hash | ampersand | tilde
  | pipe | less | greater | assign
  | leftParen | rightParen | leftBrace | rightBrace | leftBracket | rightBracket
  | semicolon | colon | comma | dot
  deriving DecidableEq, Repr

namespace Symbol

def all : List Symbol :=
  [doubleColon, ellipsis, lessEqual, greaterEqual, notEqual, equal, shiftLeft,
    shiftRight, concat, floorDiv,
    plus, minus, star, slash, percent, caret, hash, ampersand, tilde, pipe,
    less, greater, assign,
    leftParen, rightParen, leftBrace, rightBrace, leftBracket, rightBracket,
      semicolon, colon, comma, dot]

def text : Symbol → Bytes
  | doubleColon => utf8 "::"
  | ellipsis => utf8 "..."
  | lessEqual => utf8 "<="
  | greaterEqual => utf8 ">="
  | notEqual => utf8 "~="
  | equal => utf8 "=="
  | shiftLeft => utf8 "<<"
  | shiftRight => utf8 ">>"
  | concat => utf8 ".."
  | floorDiv => utf8 "//"
  | plus => utf8 "+"
  | minus => utf8 "-"
  | star => utf8 "*"
  | slash => utf8 "/"
  | percent => utf8 "%"
  | caret => utf8 "^"
  | hash => utf8 "#"
  | ampersand => utf8 "&"
  | tilde => utf8 "~"
  | pipe => utf8 "|"
  | less => utf8 "<"
  | greater => utf8 ">"
  | assign => utf8 "="
  | leftParen => utf8 "("
  | rightParen => utf8 ")"
  | leftBrace => utf8 "\x7b"
  | rightBrace => utf8 "\x7d"
  | leftBracket => utf8 "["
  | rightBracket => utf8 "]"
  | semicolon => utf8 ";"
  | colon => utf8 ":"
  | comma => utf8 ","
  | dot => utf8 "."

def atFront? (s : Bytes) : Option Symbol := all.find? (·.text.isPrefixOf s)

end Symbol

/-- Why a piece of text is no token. -/
inductive Fault where
  | invalidCharacter
  | malformedNumber
  | unterminatedString
  | unterminatedLongString
  | unterminatedLongComment
  deriving DecidableEq, Repr

def Fault.text : Fault → Bytes
  | .invalidCharacter => utf8 "invalid character"
  | .malformedNumber => utf8 "malformed number"
  | .unterminatedString => utf8 "unterminated string"
  | .unterminatedLongString => utf8 "unterminated long string"
  | .unterminatedLongComment => utf8 "unterminated long comment"

/-- A structured comment runs to the end of its line or between long
brackets. -/
inductive CommentForm where
  | line
  | block
  deriving DecidableEq, Repr

inductive TokenKind where
  | endOfInput
  | fault
  | name
  | number
  | string
  | comment (form : CommentForm)
  | keyword (word : Keyword)
  | symbol (sign : Symbol)
  deriving DecidableEq, Repr

namespace TokenKind

def text : TokenKind → Bytes
  | endOfInput => utf8 "eof"
  | fault => utf8 "error"
  | name => utf8 "identifier"
  | number => utf8 "number"
  | string => utf8 "string"
  | comment .line => utf8 "doxy-comment-sl"
  | comment .block => utf8 "doxy-comment-ml"
  | keyword word => word.text
  | symbol sign => sign.text

def isKeyword : TokenKind → Bool
  | keyword _ => true
  | _ => false

def isComment : TokenKind → Bool
  | comment _ => true
  | _ => false

/-- The kinds by number.  Two numbers, before and after the reserved words, are
left free. -/
def numbered : List (Option TokenKind) :=
  [some endOfInput, some fault, some name, some number, some string,
    some (comment .line), some (comment .block), none]
    ++ Keyword.all.map (fun word => some (keyword word)) ++ [none]
    ++ Symbol.all.map (fun sign => some (symbol sign))

def ofNumber? : Int → Option TokenKind
  | .ofNat n => (numbered[n]?).join
  | .negSucc _ => none

def unknownText (number : Int) : Bytes :=
  utf8 "token(" ++ Bytes.ofInt number ++ utf8 ")"

/-- One line that shows a token of this kind: its value, for a fault the
offending byte, for a comment whether it points back. -/
def display (kind : TokenKind) (value : Bytes) (byte : UInt8)
    (retroactive : Bool) : Bytes :=
  match kind with
  | endOfInput => utf8 "EOF"
  | fault => utf8 "ERROR:\\x" ++ Bytes.hex 2 byte.toNat
  | name => utf8 "IDENTIFIER:" ++ value
  | number => utf8 "NUMBER:" ++ value
  | string => utf8 "STRING:" ++ value
  | comment _ =>
    kind.text ++ utf8 ":" ++ (if retroactive then utf8 "<" else []) ++ value
  | keyword word => utf8 "KEYWORD:" ++ word.text
  | symbol sign => sign.text

end TokenKind

/-- What a token says.  A comment that is retroactive documents what stands
before it. -/
inductive Content where
  | endOfInput
  | fault (cause : Fault) (byte : UInt8)
  | name
  | number (value : Binary64)
  | string (body : Bytes)
  | comment (form : CommentForm) (retroactive : Bool) (body : Bytes)
  | keyword (word : Keyword)
  | symbol (sign : Symbol)
  deriving DecidableEq, Repr

def Content.kind : Content → TokenKind
  | .endOfInput => .endOfInput
  | .fault _ _ => .fault
  | .name => .name
  | .number _ => .number
  | .string _ => .string
  | .comment form _ _ => .comment form
  | .keyword word => .keyword word
  | .symbol sign => .symbol sign

inductive Channel where
  | main
  | comments
  deriving DecidableEq, Repr

namespace Channel

def number : Channel → Nat
  | main => 1
  | comments => 2

def isIn (channel : Channel) (mask : Int) : Bool :=
  match channel with
  | main => mask % 2 == 1
  | comments => mask / 2 % 2 == 1

end Channel

/-- A token: what it says, where it stands, and the source text that it
covers. -/
structure Token where
  content : Content
  pos : Pos
  lexeme : Bytes
  deriving DecidableEq, Repr

namespace Token

def kind (t : Token) : TokenKind := t.content.kind

variable (t : Token)

def channel : Channel := if t.kind.isComment then .comments else .main

/-- The text that a token stands for: the body of strings and comments,
otherwise its lexeme. -/
def value : Bytes :=
  match t.content with
  | .endOfInput => []
  | .fault cause _ => cause.text
  | .string body => body
  | .comment _ _ body => body
  | .name | .number _ | .keyword _ | .symbol _ => t.lexeme

def byte (t : Token) : UInt8 :=
  match t.content with
  | .fault _ byte => byte
  | _ => 0

def isRetroactive : Bool :=
  match t.content with
  | .comment _ retroactive _ => retroactive
  | _ => false

def isLast : Bool :=
  match t.content with
  | .endOfInput | .fault _ _ => true
  | _ => false

def display (t : Token) : Bytes := t.kind.display t.value t.byte t.isRetroactive

end Token

end LuaGloss

import LuaGloss.Token.Basic

/-!
# Source errors

What can be wrong with a source, and how it is reported: a piece of text that is
no token, or a token that the grammar does not admit at its place.  An error
names its file and its position.
-/

namespace LuaGloss

/-- What the grammar asks for at a place. -/
inductive Expected where
  | symbol (sign : Symbol)
  | keyword (word : Keyword)
  | name
  | endOfInput
  /-- What follows the first name of a `for` statement. -/
  | assignOrIn
  deriving DecidableEq, Repr

def Expected.text : Expected → Bytes
  | .symbol sign => utf8 "'" ++ sign.text ++ utf8 "' expected"
  | .keyword word => utf8 "'" ++ word.text ++ utf8 "' expected"
  | .name => utf8 "<name> expected"
  | .endOfInput => utf8 "<eof> expected"
  | .assignOrIn => utf8 "'=' or 'in' expected"

/-- Why a token is not admitted. -/
inductive SyntaxFault where
  | expected (what : Expected)
  /-- The closer of a construct that was opened on an earlier line is
  missing. -/
  | unclosed (closer opener : TokenKind) (line : Nat)
  | unexpectedSymbol
  /-- An expression that is neither a call nor the target of an assignment. -/
  | notAStatement
  | argumentsExpected
  deriving DecidableEq, Repr

def SyntaxFault.text : SyntaxFault → Bytes
  | .expected what => what.text
  | .unclosed closer opener line =>
    utf8 "'" ++ closer.text ++ utf8 "' expected (to close '" ++ opener.text ++
      utf8 "' at line "
      ++ Bytes.ofNat line ++ utf8 ")"
  | .unexpectedSymbol => utf8 "unexpected symbol"
  | .notAStatement => utf8 "syntax error"
  | .argumentsExpected => utf8 "function arguments expected"

/-- A fault together with the token at which it was found; none stands for the
end of the input. -/
structure SyntaxError where
  fault : SyntaxFault
  near : Option Bytes
  pos : Pos
  deriving DecidableEq, Repr

def SyntaxError.text (e : SyntaxError) : Bytes :=
  e.fault.text ++ utf8 " near " ++
    match e.near with
    | some lexeme => utf8 "'" ++ lexeme ++ utf8 "'"
    | none => utf8 "<eof>"

inductive SourceError where
  | lexical (file : Bytes) (pos : Pos) (cause : Fault) (byte : UInt8)
  | syntactic (file : Bytes) (error : SyntaxError)
  deriving DecidableEq, Repr

namespace SourceError

def file : SourceError → Bytes
  | lexical file _ _ _ => file
  | syntactic file _ => file

def pos : SourceError → Pos
  | lexical _ pos _ _ => pos
  | syntactic _ error => error.pos

def kindText : Int → Bytes
  | 0 => utf8 "lexical error"
  | 1 => utf8 "syntax error"
  | _ => utf8 "error"

def kind : SourceError → Bytes
  | lexical _ _ _ _ => kindText 0
  | syntactic _ _ => kindText 1

def message : SourceError → Bytes
  | lexical _ _ .invalidCharacter byte =>
    utf8 "invalid character '\\x" ++ Bytes.hex 2 byte.toNat ++ utf8 "'"
  | lexical _ _ cause byte =>
    cause.text ++ utf8 " near '\\x" ++ Bytes.hex 2 byte.toNat ++ utf8 "'"
  | syntactic _ error => error.text

def text (e : SourceError) : Bytes :=
  e.file ++ utf8 "(" ++ Bytes.ofNat e.pos.line ++ utf8 "," ++
    Bytes.ofNat e.pos.col ++ utf8 "): "
    ++ e.kind ++ utf8 ": " ++ e.message

def ofToken? (file : Bytes) (t : Token) : Option SourceError :=
  match t.content with
  | .fault cause byte => some (.lexical file t.pos cause byte)
  | _ => none

end SourceError

end LuaGloss

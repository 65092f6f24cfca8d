import LuaGloss.Number.Shortest
import LuaGloss.Syntax.Fault
import LuaGloss.Text.Quoted
import LuaGloss.Token.Stream

/-!
# Listings of tokens

A listing with one line for every token: its place, its kind and what it stands
for.
-/

namespace LuaGloss

namespace Token

def remark (t : Token) : Bytes :=
  match t.content with
  | .number value => Byte.space :: value.text
  | .comment _ isRetroactive _ =>
    (if isRetroactive then utf8 " <" else []) ++ Byte.space :: t.value.quoted
  | _ => if t.value.isEmpty then [] else Byte.space :: t.value.quoted

def listingLine (t : Token) : Bytes :=
  Bytes.padLeft 4 Byte.space (Bytes.ofNat t.pos.line) ++ utf8 ":"
    ++ Bytes.padRight 3 Byte.space (Bytes.ofNat t.pos.col) ++ utf8 " " ++
      Bytes.padRight 16 Byte.space t.kind.text
    ++ t.remark ++ [Byte.lineFeed]

end Token

/-- The lines for the tokens of a source, with or without its comments, up to
the first lexical error. -/
def tokenListing (file source : Bytes) (comments : Bool) :
    Bytes × Option SourceError :=
  let stream :=
    (Stream.ofSource source).withMask (if comments then allChannels else
      mainChannel)
  let tokens := stream.all.1
  let isSound (t : Token) : Bool := (SourceError.ofToken? file t).isNone
  ((tokens.takeWhile isSound).flatMap Token.listingLine,
    tokens.findSome? (SourceError.ofToken? file))

end LuaGloss

import LuaGloss.Text.Bytes

/-!
# YAML

The language of settings files: scalars in all styles, block and flow
collections, comments, anchors and aliases, tags and directives.  Of a stream
only the first document is of interest, and the stream is read no further than
it takes to see where that document ends.
-/

namespace LuaGloss

inductive Yaml where
  /-- A scalar.  The tag is empty if there is none; an implicit scalar is one
  whose text may stand for something else, such as nothing, a truth value or a
  number. -/
  | scalar (tag : Bytes) (isImplicit : Bool) (text : Bytes)
  | sequence (items : List Yaml)
  | mapping (entries : List (Yaml × Yaml))
  /-- The node that has the given number among the anchored nodes of its
  document.  It may be a node around this one. -/
  | alias_ (target : Nat)

namespace Yaml

def empty : Yaml := .scalar [] true []

structure Document where
  root : Yaml
  /-- The anchored nodes by their numbers. -/
  anchored : List (Nat × Yaml)
  /-- A bound for how deep nodes nest. -/
  depth : Nat

inductive Fault where
  /-- The bytes are no text, or hold characters that a text must not hold. -/
  | notText
  | unexpectedCharacter
  | unterminatedScalar
  | unknownEscape
  | tabInIndentation
  /-- A name stands where a key is due and has no colon behind it. -/
  | missingColon
  /-- A key, a value or an entry stands where none is allowed. -/
  | misplacedIndicator
  | tooDeep
  | unexpectedToken
  | unknownAnchor
  | badDirective
  | badTag
  | unknownHandle
  /-- A scalar is not what its tag says. -/
  | wrongTag
  deriving DecidableEq, Repr

def Fault.text : Fault → Bytes
  | .notText => utf8 "control characters are not allowed"
  | .unexpectedCharacter => utf8 "found character that cannot start any token"
  | .unterminatedScalar => utf8 "found unexpected end of stream"
  | .unknownEscape => utf8 "found unknown escape character"
  | .tabInIndentation => utf8 "found a tab character that violates indentation"
  | .missingColon => utf8 "could not find expected ':'"
  | .misplacedIndicator => utf8 "mapping values are not allowed in this context"
  | .tooDeep => utf8 "exceeded max depth"
  | .unexpectedToken => utf8 "did not find expected node content"
  | .unknownAnchor => utf8 "unknown anchor referenced"
  | .badDirective => utf8 "found unknown directive name"
  | .badTag => utf8 "did not find expected tag URI"
  | .unknownHandle => utf8 "found undefined tag handle"
  | .wrongTag => utf8 "cannot decode scalar as its tag"

end Yaml

end LuaGloss

import LuaGloss.Number.Binary64
import LuaGloss.Text.Base64
import LuaGloss.Yaml.Document
import LuaGloss.Yaml.Timestamp

/-!
# What scalars mean

The text of a scalar can stand for nothing, a truth value, a number or a
timestamp.  A tag of the language says what it has to stand for.
-/

namespace LuaGloss.Yaml

inductive Meaning where
  | null
  | bool (value : Bool)
  /-- An integer; whether it fits into 64 bits with a sign. -/
  | integer (isSigned : Bool)
  | float
  | timestamp
  | text
  deriving DecidableEq, Repr

namespace Meaning

def nullWords : List Bytes := ["", "~", "null", "Null", "NULL"].map utf8

def trueWords : List Bytes :=
  ["y", "Y", "yes", "Yes", "YES", "true", "True", "TRUE", "on", "On",
    "ON"].map utf8

def falseWords : List Bytes :=
  ["n", "N", "no", "No", "NO", "false", "False", "FALSE", "off", "Off",
    "OFF"].map utf8

def floatWords : List Bytes :=
  [".nan", ".NaN", ".NAN", ".inf", ".Inf", ".INF", "+.inf", "+.Inf", "+.INF",
    "-.inf", "-.Inf", "-.INF"].map utf8

def splitSign : Bytes → Option Bool × Bytes
  | Byte.plus :: rest => (some false, rest)
  | Byte.dash :: rest => (some true, rest)
  | s => (none, s)

def digits? (radix : Nat) (s : Bytes) : Option Nat :=
  if s.all fun b => Byte.isHexDigit b && Byte.digitValue b < radix then
    some (Bytes.toNat radix s) else none

variable (s : Bytes)

/-- An integer without a sign.  A zero in front makes it octal, unless a letter
after it names another radix. -/
def natural? : Option Nat :=
  match s with
  | [] => none
  | Byte.zero :: mark :: digit :: rest =>
    let mark := Byte.toLower mark
    if mark = 98 then digits? 2 (digit :: rest)
    else if mark = 111 then digits? 8 (digit :: rest)
    else if mark = 120 then digits? 16 (digit :: rest)
    else digits? 8 s
  | Byte.zero :: _ => digits? 8 s
  | _ => digits? 10 s

def ofInteger? (isNegative : Option Bool) (size : Nat) : Option Meaning :=
  let limit := 0x8000000000000000
  if size < limit || (isNegative == some true && size == limit) then
  some (.integer true)
  else if isNegative.isNone && size < 2 * limit then some (.integer false)
  else none

/-- An integer in binary whose sign stands behind the letter that names the
radix. -/
def innerSigned? : Option Meaning :=
  match s with
  | Byte.zero :: 98 :: rest =>
    let (isNegative, digits) := splitSign rest
    if digits.isEmpty then none
    else
      match digits? 2 digits, ofInteger? isNegative (Bytes.toNat 2 digits) with
      | some _, some (.integer true) => some (.integer true)
      | _, _ => none
  | _ => none

/-- The exponent of a number that goes on with the given text, if there is
nothing else.  Beyond five digits an exponent is out of any range, and further
digits add nothing. -/
def exponent? : Option Int :=
  match s with
  | [] => some 0
  | letter :: rest =>
    let (isNegative, digits) := splitSign rest
    if Byte.toLower letter = 101 ∧ !digits.isEmpty ∧ digits.all Byte.isDigit then
      let size : Int :=
        digits.foldl (fun n b => if n < 10000 then
          n * 10 + Byte.digitValue b else n) 0
      some (if isNegative = some true then -size else size)
    else none

def isDecimal : Bool :=
  let rest := (splitSign s).2
  let whole := rest.takeWhile Byte.isDigit
  let rest := rest.dropWhile Byte.isDigit
  let (places, rest) :=
    match rest with
    | Byte.dot :: rest =>
      (rest.takeWhile Byte.isDigit, rest.dropWhile Byte.isDigit)
    | rest => ([], rest)
  match exponent? rest with
  | some exponent =>
    !(whole ++ places).isEmpty
      && !(Binary64.ofDecimal (Bytes.toNat 10 (whole ++ places))
        (exponent - places.length)).isInfinite
  | none => false

def separatesDigits : (isDigit : Bool) → Bytes → Bool
  | _, [] => true
  | isDigit, b :: rest =>
    if b = Byte.underscore then
      isDigit && rest.head?.any Byte.isDigit && separatesDigits false rest
    else separatesDigits (Byte.isDigit b) rest

def withoutUnderscores : Bytes := s.filter (· != Byte.underscore)

def ofNumber (mayBeTimestamp : Bool) (s : Bytes) : Meaning :=
  let plain := withoutUnderscores s
  let (isNegative, rest) := splitSign plain
  if mayBeTimestamp && Timestamp.isValid s then .timestamp
  else
    match (natural? rest).bind (ofInteger? isNegative) with
    | some meaning => meaning
    | none => if isDecimal plain then .float else (innerSigned? plain).getD .text

def ofText (mayBeTimestamp : Bool) (s : Bytes) : Meaning :=
  if nullWords.contains s then .null
  else if trueWords.contains s then .bool true
  else if falseWords.contains s then .bool false
  else if floatWords.contains s then .float
  else
    match s with
    | Byte.dot :: _ =>
      if separatesDigits false s && isDecimal (withoutUnderscores s) then
        .float else .text
    | b :: _ =>
      if Byte.isDigit b || b == Byte.plus || b == Byte.dash then
        ofNumber mayBeTimestamp s else .text
    | [] => .text

end Meaning

/-- The tags of the language that scalars may have. -/
inductive ScalarTag where
  | null
  | bool
  | integer
  | float
  | timestamp
  | text
  | binary
  deriving DecidableEq, Repr

namespace ScalarTag

def named : List (Bytes × ScalarTag) :=
  [(utf8 "null", .null), (utf8 "bool", .bool), (utf8 "int", .integer),
    (utf8 "float", .float),
    (utf8 "timestamp", .timestamp), (utf8 "str", .text), (utf8 "binary", .binary)]

def ofTag? (tag : Bytes) : Option ScalarTag :=
  (Builder.languageTag.isPrefixOf? tag).bind fun name => named.lookup name

/-- Whether a tag allows a meaning.  An integer that fits is a number with a
fraction, too. -/
def allows : ScalarTag → Meaning → Bool
  | .null, .null | .bool, .bool _ | .integer, .integer _
  | .timestamp, .timestamp => true
  | .float, .float | .float, .integer true => true
  | _, _ => false

end ScalarTag

/-- What is left of a scalar once its tag has been heeded. -/
inductive Scalar where
  | null
  | bool (value : Bool) (text : Bytes)
  | text (text : Bytes)
  deriving DecidableEq, Repr

namespace Scalar

def ofMeaning (meaning : Meaning) (s : Bytes) : Scalar :=
  match meaning with
  | .null => .null
  | .bool value => .bool value s
  | _ => .text s

/-- What a scalar stands for.  Tags that are not of the language make a text of
it. -/
def resolve (tag : Bytes) (isImplicit : Bool) (s : Bytes) : Except Fault Scalar :=
  if tag.isEmpty then
    .ok (if isImplicit then ofMeaning (.ofText true s) s else .text s)
  else
    match ScalarTag.ofTag? tag with
    | none | some .text => .ok (.text s)
    | some .binary =>
      match Base64.decode s with
      | some bytes => .ok (.text bytes)
      | none => .error .wrongTag
    | some tag =>
      let meaning := Meaning.ofText (tag == .timestamp) s
      if tag.allows meaning then .ok (ofMeaning meaning s) else .error .wrongTag

end Scalar

def isMerge : Yaml → Bool
  | .scalar tag isImplicit text =>
    text == utf8 "<<" && (isImplicit || tag == Builder.languageTag ++ utf8 "merge")
  | _ => false

end LuaGloss.Yaml

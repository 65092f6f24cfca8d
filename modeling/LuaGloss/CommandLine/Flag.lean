import LuaGloss.Text.Quoted

/-!
# Flags

A flag has a name and often a letter.  A text flag takes a value, which may be
the next word; a switch is on when it is named, and may be given a truth value
behind an equals sign.
-/

namespace LuaGloss

inductive Flag where
  | config
  | verbose
  | quiet
  | output
  | language
  | format
  | all
  | comments
  | noDescriptions
  | help
  | version
  deriving DecidableEq, Repr

namespace Flag

def name : Flag → Bytes
  | config => utf8 "config"
  | verbose => utf8 "verbose"
  | quiet => utf8 "quiet"
  | output => utf8 "output"
  | language => utf8 "language"
  | format => utf8 "format"
  | all => utf8 "all"
  | comments => utf8 "comments"
  | noDescriptions => utf8 "no-descriptions"
  | help => utf8 "help"
  | version => utf8 "version"

def letter? : Flag → Option Char
  | config => some 'c'
  | verbose => some 'v'
  | quiet => some 'q'
  | output => some 'o'
  | format => some 'f'
  | all => some 'a'
  | comments => some 'C'
  | help => some 'h'
  | language | noDescriptions | version => none

def isSwitch : Flag → Bool
  | config | output | language | format => false
  | verbose | quiet | all | comments | noDescriptions | help | version => true

def hasLetter (flag : Flag) (b : UInt8) : Bool := flag.letter?.any (·.toUInt8 == b)

def title (flag : Flag) : Bytes :=
  match flag.letter? with
  | some letter => utf8 "-" ++ [letter.toUInt8] ++ utf8 ", --" ++ flag.name
  | none => utf8 "--" ++ flag.name

def shared : List Flag := [config, verbose, quiet]

end Flag

/-- What the flags of a command line say. -/
structure Options where
  config : Bytes
  output : Bytes
  language : Bytes
  format : Bytes
  verbose : Bool
  quiet : Bool
  all : Bool
  comments : Bool
  help : Bool
  version : Bool
  deriving DecidableEq, Repr

/-- A flag that cannot be read. -/
inductive FlagError where
  | malformed (word : Bytes)
  | unknown (name : Bytes)
  | unknownLetter (letter : UInt8) (group : Bytes)
  | missingValue (flag : Flag)
  | missingLetterValue (letter : UInt8)
  | noTruthValue (flag : Flag) (value : Bytes)
  deriving DecidableEq, Repr

def FlagError.text : FlagError → Bytes
  | malformed word => utf8 "bad flag syntax: " ++ word
  | unknown name => utf8 "unknown flag: --" ++ name
  | unknownLetter letter group =>
    utf8 "unknown shorthand flag: " ++ Byte.quoted letter ++ utf8 " in -" ++ group
  | missingValue flag => utf8 "flag needs an argument: --" ++ flag.name
  | missingLetterValue letter =>
    utf8 "flag needs an argument: " ++ Byte.quoted letter ++
      utf8 " in -" ++ [letter]
  | noTruthValue flag value =>
    utf8 "invalid argument " ++ value.quoted ++ utf8 " for " ++ flag.title.quoted
      ++ utf8 " flag: strconv.ParseBool: parsing " ++ value.quoted ++
        utf8 ": invalid syntax"

namespace Options

/-- The options before any flag is read, with the settings file that is used
without one. -/
def start (config : Bytes) : Options :=
  ⟨config, [], [], utf8 "human", false, false, false, false, false, false⟩

def setText (o : Options) : Flag → Bytes → Options
  | .config, value => { o with config := value }
  | .output, value => { o with output := value }
  | .language, value => { o with language := value }
  | .format, value => { o with format := value }
  | _, _ => o

def setSwitch (o : Options) : Flag → Bool → Options
  | .verbose, value => { o with verbose := value }
  | .quiet, value => { o with quiet := value }
  | .all, value => { o with all := value }
  | .comments, value => { o with comments := value }
  | .help, value => { o with help := value }
  | .version, value => { o with version := value }
  | _, _ => o

def truthValue? (word : Bytes) : Option Bool :=
  if (["1", "t", "T", "true", "TRUE", "True"].map utf8).contains word then
    some true
  else if (["0", "f", "F", "false", "FALSE", "False"].map utf8).contains
  word then some false
  else none

def set (o : Options) (flag : Flag) (value : Bytes) : Except FlagError Options :=
  if flag.isSwitch then
    match truthValue? value with
    | some b => .ok (o.setSwitch flag b)
    | none => .error (.noTruthValue flag value)
  else .ok (o.setText flag value)

/-- Reads a flag that is written with its name, which stands behind two dashes;
also whether the next word is used up as its value. -/
def readNamed (known : List Flag) (next : Option Bytes) (o : Options)
    (body : Bytes) : Except FlagError (Options × Bool) := do
  if body.head?.any fun b => b == Byte.dash || b == Byte.equals then
    throw (.malformed (utf8 "--" ++ body))
  let (name, value) := match Bytes.cut [Byte.equals] body with
    | some (name, value) => (name, some value)
    | none => (body, none)
  match known.find? (·.name == name) with
  | none => throw (.unknown name)
  | some flag =>
    match value with
    | some value => return (← o.set flag value, false)
    | none =>
      if flag.isSwitch then return (o.setSwitch flag true, false)
      else
        match next with
        | some value => return (o.setText flag value, true)
        | none => throw (.missingValue flag)

/-- Groups of letters that begin like this belong to a test runner and are
passed over. -/
def runnerMark : Bytes := utf8 "test."

/-- Reads the flags in a group of letters; also whether the next word is used up
as a value. -/
def readLetters (known : List Flag) (next : Option Bytes) (o : Options) :
    Bytes → Except FlagError (Options × Bool)
  | [] => .ok (o, false)
  | letter :: rest =>
    if runnerMark.isPrefixOf (letter :: rest) then .ok (o, false)
    else
      match known.find? (·.hasLetter letter) with
      | none => .error (.unknownLetter letter (letter :: rest))
      | some flag =>
        if rest.head? == some Byte.equals && 1 < rest.length then do
          return (← o.set flag (rest.drop 1), false)
        else if flag.isSwitch then
          readLetters known next (o.setSwitch flag true) rest
        else if !rest.isEmpty then .ok (o.setText flag rest, false)
        else
          match next with
          | some value => .ok (o.setText flag value, true)
          | none => .error (.missingLetterValue letter)

/-- Reads the words of a command line; the options, and the words that are no
flags.  Two dashes end the flags. -/
def readWords (known : List Flag) (o : Options) :
    List Bytes → Except FlagError (Options × List Bytes)
  | [] => .ok (o, [])
  | word :: rest => do
    match word with
    | Byte.dash :: Byte.dash :: [] => return (o, rest)
    | Byte.dash :: letter :: letters =>
      let (o, isUsed) ←
        if letter == Byte.dash then readNamed known rest.head? o letters
        else readLetters known rest.head? o (letter :: letters)
      readWords known o (if isUsed then rest.drop 1 else rest)
    | word =>
      let (o, words) ← readWords known o rest
      return (o, word :: words)
termination_by words => words.length
decreasing_by
  · split <;> simp only [List.length_drop, List.length_cons] <;> omega
  · simp

end Options

end LuaGloss

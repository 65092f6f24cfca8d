import LuaGloss.CommandLine.Flag
import LuaGloss.Text.Case
import LuaGloss.Text.EditDistance

/-!
# Invocations

A command line is a command with its flags and its arguments, in any order.  The
command is the first word that is neither a flag nor the value of one.
-/

namespace LuaGloss

/-- The shells that can complete command lines. -/
inductive CompletingShell where
  | bash
  | zsh
  | fish
  | powershell
  deriving DecidableEq, Repr

namespace CompletingShell

def all : List CompletingShell := [bash, zsh, fish, powershell]

def name : CompletingShell → Bytes
  | bash => utf8 "bash"
  | zsh => utf8 "zsh"
  | fish => utf8 "fish"
  | powershell => utf8 "powershell"

def ofName? (name : Bytes) : Option CompletingShell := all.find? (·.name == name)

end CompletingShell

inductive Subcommand where
  | generate
  | filter
  | tokens
  | version
  /-- Shows how the program is used. -/
  | help
  /-- Helps a shell to complete command lines; without the name of a shell,
  shows how the program is used. -/
  | completion (shell : Option CompletingShell)
  /-- Is called by shells to complete a command line, which follows as it is. -/
  | complete
  deriving DecidableEq, Repr

namespace Subcommand

def all : List Subcommand :=
  [generate, filter, tokens, version, help, completion none]

def name : Subcommand → Bytes
  | generate => utf8 "generate"
  | filter => utf8 "filter"
  | tokens => utf8 "tokens"
  | version => utf8 "version"
  | help => utf8 "help"
  | completion none => utf8 "completion"
  | completion (some shell) => utf8 "completion " ++ shell.name
  | complete => utf8 "__complete"

/-- Another name for what shells call, by which they ask for no descriptions. -/
def briefCompleteName : Bytes := utf8 "__completeNoDesc"

def ofName? (name : Bytes) : Option Subcommand :=
  if name = briefCompleteName then some complete
    else (complete :: all).find? (·.name == name)

def flags : Subcommand → List Flag
  | generate => [.output, .language, .help] ++ Flag.shared
  | filter => [.format, .all, .help] ++ Flag.shared
  | tokens => [.comments, .help] ++ Flag.shared
  | version | help | completion none => .help :: Flag.shared
  | completion (some _) => [.noDescriptions, .help] ++ Flag.shared
  | complete => []

def misspellingLimit : Nat := 2

/-- Whether a word is near enough to the name of a command to be meant for it,
letter case aside. -/
def isMeantBy (command : Subcommand) (word : Bytes) : Bool :=
  let lower := word.lower
  editDistance lower command.name ≤ misspellingLimit ||
    lower.isPrefixOf command.name

/-- The commands that a misspelled word may be meant for.  Nobody is pointed to
the help. -/
def meantBy (word : Bytes) : List Subcommand :=
  all.filter fun command => command != help && command.isMeantBy word

end Subcommand

inductive UsageError where
  | flag (cause : FlagError)
  | unknownCommand (word : Bytes)
  /-- An argument of a command that takes none. -/
  | unexpectedArgument (command : Subcommand) (word : Bytes)
  | tooFewArguments (least given : Nat)
  | wrongArgumentCount (wanted given : Nat)
  deriving DecidableEq, Repr

def programName : Bytes := utf8 "luadoxyxml"

def UsageError.text : UsageError → Bytes
  | flag cause => cause.text
  | unknownCommand word =>
    let meant := (Subcommand.meantBy word).flatMap fun command =>
      utf8 "\t" ++ command.name ++ utf8 "\n"
    utf8 "unknown command " ++ word.quoted ++ utf8 " for " ++ programName.quoted
      ++ (if meant.isEmpty then [] else utf8 "\n\nDid you mean this?\n" ++ meant)
  | unexpectedArgument command word =>
    utf8 "unknown command " ++ word.quoted ++ utf8 " for " ++
      (programName ++ utf8 " " ++ command.name).quoted
  | tooFewArguments least given =>
    utf8 "requires at least " ++ Bytes.ofNat least ++
      utf8 " arg(s), only received " ++ Bytes.ofNat given
  | wrongArgumentCount wanted given =>
    utf8 "accepts " ++ Bytes.ofNat wanted ++ utf8 " arg(s), received " ++
      Bytes.ofNat given

def Subcommand.argumentError? (command : Subcommand) (arguments : List Bytes) :
    Option UsageError :=
  let given := arguments.length
  match command with
  | generate | filter
  | complete => if given = 0 then some (.tooFewArguments 1 given) else none
  | tokens => if given = 1 then none else some (.wrongArgumentCount 1 given)
  | completion (some _) => arguments.head?.map (.unexpectedArgument command)
  | version | help | completion none => none

/-- What the user asks for; no command stands for the program itself. -/
structure Invocation where
  command : Option Subcommand
  options : Options
  arguments : List Bytes
  deriving DecidableEq, Repr

namespace Invocation

/-- Whether a word is a flag that the next word belongs to, as far as can be
said before the command is known. -/
def takesNext (word : Bytes) : Bool :=
  let switches := Flag.shared.filter Flag.isSwitch
  if word.contains [Byte.equals] then false
  else
    match word with
    | Byte.dash :: Byte.dash :: name => !switches.any (·.name == name)
    | [Byte.dash, letter] => !switches.any (·.hasLetter letter)
    | _ => false

def endOfFlags : Bytes := [Byte.dash, Byte.dash]

/-- The words that are neither flags nor values of flags.  If a flag that takes
a value has at most one word behind it, there are no more. -/
def plainWords : List Bytes → List Bytes
  | [] => []
  | word :: rest =>
    if word = endOfFlags then []
    else if takesNext word then
      match rest with
      | _ :: next :: more => plainWords (next :: more)
      | _ => []
    else if word.isEmpty || word.head? == some Byte.dash then plainWords rest
    else word :: plainWords rest

def removeWord (name : Bytes) : List Bytes → List Bytes
  | [] => []
  | word :: rest =>
    if word = endOfFlags then word :: rest
    else if takesNext word then
      match rest with
      | value :: more => word :: value :: removeWord name more
      | [] => [word]
    else if word = name then rest
    else word :: removeWord name rest

/-- The command that a word names, and the words that are left for it.  The
command for shells may be followed by the name of one. -/
def command? (name : Bytes) (words : List Bytes) :
    Option (Subcommand × List Bytes) := do
  let command ← Subcommand.ofName? name
  let words := removeWord name words
  match command with
  | .completion none =>
    let shell := (plainWords words).head?.getD []
    match CompletingShell.ofName? shell with
    | some completing =>
      return (.completion (some completing), removeWord shell words)
    | none => return (command, words)
  | _ => return (command, words)

/-- Reads a command line.  The first argument is the settings file that is used
if none is named. -/
def parse (config : Bytes) (words : List Bytes) :
    Except UsageError Invocation := do
  let read (flags : List Flag) (words : List Bytes) :
      Except UsageError (Options × List Bytes) :=
    (Options.readWords flags (.start config) words).mapError .flag
  match plainWords words with
  | [] =>
    let (options, arguments) ← read ([.help, .version] ++ Flag.shared) words
    return ⟨none, options, arguments⟩
  | name :: _ =>
    match command? name words with
    | none => throw (.unknownCommand name)
    | some (command, words) =>
      let (options, arguments) ←
        if command = .complete then pure (.start config, words)
          else read command.flags words
      match command.argumentError? arguments with
      | some error =>
        if options.help then return ⟨command, options, arguments⟩ else throw error
      | none => return ⟨command, options, arguments⟩

end Invocation

end LuaGloss

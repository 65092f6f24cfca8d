import LuaGloss.Text.Quoted
import LuaGloss.Vocabulary

/-!
# Settings

What a user can choose: the name of the index file, the language that is written
to the documentation, the extensions of source files and additional commands for
comments.
-/

namespace LuaGloss

/-- A command for comments as it stands in the settings. -/
structure CommandSetting where
  name : Bytes
  tag : Bytes
  kind : Bytes
  takesParam : Bool
  isBaseType : Bool
  deriving DecidableEq, Repr

inductive SettingsError where
  /-- The command with this number has no name. -/
  | missingName (number : Nat)
  | missingTag (name : Bytes)
  | unknownKind (name kind : Bytes)
  | missingPlaceholder (name : Bytes)
  deriving DecidableEq, Repr

def SettingsError.text : SettingsError → Bytes
  | .missingName number =>
    utf8 "command " ++ Bytes.ofNat number ++ utf8 ": missing name"
  | .missingTag name => utf8 "command " ++ name ++ utf8 ": missing tag"
  | .unknownKind name kind =>
    utf8 "command " ++ name ++ utf8 ": unknown kind " ++ kind.quoted
  | .missingPlaceholder name =>
    utf8 "command " ++ name ++ utf8 ": parameter tag must contain %s"

namespace CommandSetting

def error? (command : CommandSetting) (number : Nat) : Option SettingsError :=
  if command.name.isEmpty then some (.missingName number)
  else if command.tag.isEmpty then some (.missingTag command.name)
  else if (VariableKind.ofText? command.kind).isNone then
  some (.unknownKind command.name command.kind)
  else if (command.takesParam || command.isBaseType) &&
    !command.tag.contains (utf8 "%s") then
    some (.missingPlaceholder command.name)
  else none

def toCommand (command : CommandSetting) : CustomCommand :=
  ⟨command.name, command.tag, (VariableKind.ofText? command.kind).getD .normal,
    command.takesParam,
    command.isBaseType⟩

end CommandSetting

structure Settings where
  output : Bytes
  language : Bytes
  extensions : List Bytes
  commands : List CommandSetting
  deriving DecidableEq, Repr

namespace Settings

def defaultOutput : Bytes := utf8 "index.xml"

def default : Settings :=
  ⟨defaultOutput, utf8 "Lua", [utf8 ".lua", utf8 ".dox"], []⟩

def error? (s : Settings) : Option SettingsError :=
  s.commands.zipIdx.findSome? fun (command, i) => command.error? (i + 1)

/-- The commands that comments know: the usual ones, overridden by those in the
settings. -/
def vocabulary (s : Settings) : Vocabulary :=
  s.commands.foldl (fun v command => v.add command.toCommand) .default

def extension (path : Bytes) : Bytes :=
  let backwards := path.reverse.takeWhile (· != Byte.slash)
  match backwards.dropWhile (· != Byte.dot) with
  | [] => []
  | _ => (backwards.takeWhile (· != Byte.dot) ++ [Byte.dot]).reverse

def hasExtension (s : Settings) (path : Bytes) : Bool :=
  s.extensions.any fun candidate => candidate.lowerCodes ==
    (extension path).lowerCodes

end Settings

end LuaGloss

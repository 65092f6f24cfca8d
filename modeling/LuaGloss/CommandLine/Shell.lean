import LuaGloss.CommandLine.Invocation
import LuaGloss.Listing.Data
import LuaGloss.Listing.Report
import LuaGloss.Listing.Tokens
import LuaGloss.Run
import LuaGloss.Settings.Reader

/-!
# Commands at work

A command reads and writes files and prints text.  It stops at its first error;
what it has printed and written until then stays.
-/

namespace LuaGloss

inductive ShellError where
  | usage (cause : UsageError)
  | settingsFile (path : Bytes) (cause : FileError)
  | settings (cause : SettingsFault)
  | input (cause : FileError)
  | noInput
  | sourceFile (path : Bytes) (cause : FileError)
  | source (path : Bytes) (cause : SourceError)
  | tokens (cause : SourceError)
  | press (cause : PressError)
  deriving DecidableEq, Repr

namespace ShellError

def text : ShellError → Bytes
  | usage cause => cause.text
  | settingsFile path cause =>
    utf8 "failed to read config " ++ path ++ utf8 ": " ++ cause.text
  | settings cause => cause.text
  | input cause => cause.text
  | noInput => utf8 "no input files found"
  | sourceFile path cause => Run.openErrorText path cause
  | source path cause => Run.readErrorText path cause
  | tokens cause => cause.text
  | press cause => Run.generateErrorText cause

def source? : ShellError → Option SourceError
  | source _ cause | tokens cause => some cause
  | _ => none

end ShellError

structure Shell where
  tree : FileTree
  printed : Bytes
  notices : Array Notice

abbrev ShellM := EStateM ShellError Shell

namespace Shell

def start (tree : FileTree) : Shell := ⟨tree, [], #[]⟩

def print (text : Bytes) : ShellM Unit :=
  modify fun s => { s with printed := s.printed ++ text }

def settingsFile : Bytes := utf8 ".luadoxyxml.yaml"

/-- Reads the settings.  Without a name the usual file is read, if there is
one. -/
def loadSettings (path : Bytes) : ShellM Settings := do
  let file := if path.isEmpty then settingsFile else path
  match (← get).tree.read file with
  | .ok content =>
    match Settings.read content with
    | .ok settings => return settings
    | .error cause => throw (.settings cause)
  | .error cause =>
    if path.isEmpty && cause.fault == .notFound then return .default
    else throw (.settingsFile file cause)

/-- The sources that an input stands for: a file for itself, a directory for the
files in it that have the right extension. -/
def sourcesAt (tree : FileTree) (settings : Settings) (input : Bytes) :
    Except FileError (List Bytes) := do
  match ← tree.stat input with
  | .file _ => return [input]
  | .directory =>
    let names := (tree.filesIn input).filter settings.hasExtension
    return (names.mergeSort Bytes.le).map (Path.join input)

def collect (settings : Settings) (inputs : List Bytes) : ShellM (List Bytes) := do
  match inputs.mapM (sourcesAt (← get).tree settings) with
  | .ok files => return files.flatten
  | .error cause => throw (.input cause)

def readFile (run : Run) (file : Bytes) : ShellM Run := do
  match (← get).tree.read file with
  | .error cause => throw (.sourceFile file cause)
  | .ok content =>
    let (error, run) := run.readSource file content
    modify fun s => { s with notices := run.catalog.docs.notices }
    match error with
    | some cause => throw (.source file cause)
    | none => return run

def generate (options : Options) (inputs : List Bytes) : ShellM Unit := do
  let settings ← loadSettings options.config
  let settings :=
    if options.output.isEmpty then settings
      else { settings with output := options.output }
  let settings :=
    if options.language.isEmpty then settings
      else { settings with language := options.language }
  let say (text : Bytes) : ShellM Unit :=
    if options.quiet then pure () else print text
  let files ← collect settings inputs
  if files.isEmpty then throw .noInput
  let run ← files.foldlM (fun run file => do
    say (utf8 "Parsing " ++ file ++ utf8 "...\n")
    readFile run file) (Run.start settings)
  let (error, run, tree) := run.generate (← get).tree settings.output
  modify fun s => { s with tree, notices := run.catalog.docs.notices }
  match error with
  | some cause => throw (.press cause)
  | none =>
    say (utf8 "Wrote " ++ settings.output ++ utf8 " (" ++
      Bytes.ofNat files.length ++ utf8 " files, "
      ++ Bytes.ofNat run.catalog.docs.warnings ++ utf8 " warnings)\n")

def filter (options : Options) (inputs : List Bytes) : ShellM Unit := do
  let settings ← loadSettings options.config
  let files ← collect settings inputs
  let run ← files.foldlM readFile (Run.start settings)
  let catalog := run.finalize.catalog
  modify fun s => { s with notices := catalog.docs.notices }
  if options.format = utf8 "json" then
    print (catalog.listingData files options.all)
  else print (catalog.listingReport files options.all)

def tokens (options : Options) (file : Bytes) : ShellM Unit := do
  match (← get).tree.read file with
  | .error cause => throw (.sourceFile file cause)
  | .ok content =>
    let (lines, error) := tokenListing file content options.comments
    print lines
    match error with
    | some cause => throw (.tokens cause)
    | none => return

def versionText : Bytes := utf8 "dev (unknown)"

def versionReport : Bytes :=
  programName ++ utf8 " " ++ versionText ++
    utf8 "\n  Version: dev\n  Commit:  unknown\n  Date:    unknown\n"

def usage : Bytes :=
  let names := Bytes.join (utf8 "|") (Subcommand.all.map Subcommand.name)
  utf8 "Usage:\n  " ++ programName ++ utf8 " (" ++ names ++
    utf8 ") [flags] [file]...\n"

def execute (invocation : Invocation) : ShellM Unit := do
  let options := invocation.options
  if options.help then print usage
  else
    match invocation.command with
    | some .generate => generate options invocation.arguments
    | some .filter => filter options invocation.arguments
    | some .tokens => tokens options (invocation.arguments.headD [])
    | some .version => print versionReport
    | some .help | some (.completion _) | some .complete => print usage
    | none =>
      if options.version then
        print (programName ++ utf8 " version " ++ versionText ++ utf8 "\n")
      else print usage

def run (config : Bytes) (words : List Bytes) : ShellM Unit := do
  match Invocation.parse config words with
  | .ok invocation => execute invocation
  | .error cause => throw (.usage cause)

end Shell

end LuaGloss

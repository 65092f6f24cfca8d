import LuaGloss.CommandLine.Shell
import LuaGloss.Listing.Notices

/-!
# The program

The files that a command line names are read into a file tree, the command does
its work on the tree, and what is new in it is written.
-/

namespace LuaGloss

namespace Program

/-- The environment variable that names the settings file to be used if the
command line names none. -/
def settingsVariable : String := "LUADOXYXML_CONFIG"

def stringOf (s : Bytes) : String := (String.fromUTF8? ⟨s.toArray⟩).getD ""

def loadEntry (tree : FileTree) (path : Bytes) : IO FileTree := do
  match tree.locate path with
  | .error _ => return tree
  | .ok place =>
    let name := (← IO.currentDir) / stringOf path
    if FileTree.isGiven place then return tree
    else if ← name.isDir then return tree.set place .directory
    else if ← name.pathExists then
      return tree.set place (.file (← IO.FS.readBinFile name).data.toList)
    else return tree

/-- Reads a path with the directories on the way, and the files in it if it is a
directory. -/
def loadPath (tree : FileTree) (path : Bytes) : IO FileTree := do
  let mut tree := tree
  for part in FileTree.ancestors path ++ [path] do
    tree ← loadEntry tree part
  let name := (← IO.currentDir) / stringOf path
  if ← name.isDir then
    for entry in ← name.readDir do
      tree ← loadEntry tree (path ++ [Byte.slash] ++ utf8 entry.fileName)
  return tree

def pathsOf (invocation : Invocation) : List Bytes :=
  let options := invocation.options
  [if options.config.isEmpty then Shell.settingsFile else options.config,
    Path.directory options.output]
    ++ invocation.arguments

def store (tree : FileTree) : IO Unit := do
  for (place, entry) in tree.entries do
    let name := stringOf (FileTree.pathText place)
    match entry with
    | .directory => IO.FS.createDirAll name
    | .file content => IO.FS.writeBinFile name ⟨content.toArray⟩

def fail (message : String) : IO UInt32 := do
  IO.eprintln s!"Error: {message}"
  return 1

def run (config : Bytes) (words : List Bytes) (invocation : Invocation) :
    IO UInt32 := do
  let tree ← (pathsOf invocation).foldlM loadPath .empty
  let (shell, error) := match (Shell.run config words).run (.start tree) with
    | .ok _ shell => (shell, none)
    | .error error shell => (shell, some error)
  (← IO.getStdout).write ⟨shell.printed.toArray⟩
  for notice in shell.notices do
    if notice.isShown invocation.options.verbose invocation.options.quiet then
      (← IO.getStderr).write ⟨notice.line.toArray⟩
  store (tree.changesFrom shell.tree)
  match error with
  | some error => fail (stringOf error.text)
  | none => return 0

def start (args : List String) : IO UInt32 := do
  let config := utf8 ((← IO.getEnv settingsVariable).getD "")
  let words := args.map utf8
  match Invocation.parse config words with
  | .error error => fail (stringOf error.text)
  | .ok invocation =>
    try run config words invocation
    catch error => fail error.toString

end Program

end LuaGloss

def main (args : List String) : IO UInt32 := LuaGloss.Program.start args

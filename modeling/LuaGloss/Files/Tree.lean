import LuaGloss.Files.Path

/-!
# File trees

A file tree is what a program sees of the files around its working directory:
files with their content, and directories.  Paths are followed element by
element, so that every element but the last has to be a directory.
-/

namespace LuaGloss

inductive FileFault where
  | notFound
  | isDirectory
  | notDirectory
  | nameTooLong
  | alreadyExists
  /-- A path with a zero byte. -/
  | invalidPath
  deriving DecidableEq, Repr

def FileFault.text : FileFault → Bytes
  | .notFound => utf8 "no such file or directory"
  | .isDirectory => utf8 "is a directory"
  | .notDirectory => utf8 "not a directory"
  | .nameTooLong => utf8 "file name too long"
  | .alreadyExists => utf8 "file exists"
  | .invalidPath => utf8 "invalid argument"

inductive FileAction where
  | open_
  | read
  | stat
  | makeDirectory
  deriving DecidableEq, Repr

def FileAction.text : FileAction → Bytes
  | .open_ => utf8 "open"
  | .read => utf8 "read"
  | .stat => utf8 "stat"
  | .makeDirectory => utf8 "mkdir"

structure FileError where
  action : FileAction
  path : Bytes
  fault : FileFault
  deriving DecidableEq, Repr

def FileError.text (e : FileError) : Bytes :=
  e.action.text ++ utf8 " " ++ e.path ++ utf8 ": " ++ e.fault.text

inductive FileEntry where
  | file (content : Bytes)
  | directory
  deriving DecidableEq, Repr

/-- Files and directories by the elements of their clean paths.  The first
element of a path from the root is a slash. -/
structure FileTree where
  entries : List (List Bytes × FileEntry)
  deriving DecidableEq, Repr

namespace FileTree

def empty : FileTree := ⟨[]⟩

variable (t : FileTree) (place : List Bytes) (path : Bytes)

/-- The directories that are always there: the working directory, those above
it, and the root. -/
def isGiven : Bool := place.all (· == Path.dotDot) || place == [[Byte.slash]]

def entry? : Option FileEntry :=
  if isGiven place then some .directory else t.entries.lookup place

def set (entry : FileEntry) : FileTree :=
  ⟨t.entries.filter (·.1 != place) ++ [(place, entry)]⟩

def nameLimit : Nat := 255

def pathLimit : Nat := 4095

def parent : List Bytes :=
  if place.all (· == Path.dotDot) then place ++ [Path.dotDot]
  else if isGiven place then place
  else place.dropLast

def follow (t : FileTree) (here : List Bytes) :
    List Bytes → Except FileFault (List Bytes)
  | [] => .ok here
  | name :: rest =>
    match t.entry? here with
    | none => .error .notFound
    | some (.file _) => .error .notDirectory
    | some .directory =>
      if name.isEmpty || name == Path.dot then follow t here rest
      else if name == Path.dotDot then follow t (parent here) rest
      else if nameLimit < name.length then .error .nameTooLong
      else follow t (here ++ [name]) rest

def locate : Except FileFault (List Bytes) :=
  if List.contains path 0 then .error .invalidPath
  else if path.isEmpty then .error .notFound
  else if pathLimit < path.length then .error .nameTooLong
  else t.follow (if Path.isRooted path then [[Byte.slash]] else [])
  (Bytes.splitOn Byte.slash path)

def find : Except FileFault FileEntry := do
  match t.entry? (← t.locate path) with
  | some entry => return entry
  | none => throw .notFound

def stat (t : FileTree) (path : Bytes) : Except FileError FileEntry :=
  (t.find path).mapError fun fault => ⟨.stat, path, fault⟩

def read (t : FileTree) (path : Bytes) : Except FileError Bytes :=
  match t.find path with
  | .error fault => .error ⟨.open_, path, fault⟩
  | .ok .directory => .error ⟨.read, path, .isDirectory⟩
  | .ok (.file content) => .ok content

def write (path content : Bytes) : Except FileError FileTree :=
  match t.locate path with
  | .error fault => .error ⟨.open_, path, fault⟩
  | .ok place =>
    match t.entry? place with
    | some .directory => .error ⟨.open_, path, .isDirectory⟩
    | _ => .ok (t.set place (.file content))

def makeDirectory (t : FileTree) (path : Bytes) : Except FileError FileTree :=
  match t.locate (Bytes.trimRight (· == Byte.slash) path) with
  | .error fault => .error ⟨.makeDirectory, path, fault⟩
  | .ok place =>
    match t.entry? place with
    | none => .ok (t.set place .directory)
    | some .directory => .ok t
    | some (.file _) => .error ⟨.makeDirectory, path, .alreadyExists⟩

/-- The directories above a clean path, outermost first, each with a slash
behind it. -/
def ancestors : List Bytes :=
  let elements := Bytes.splitOn Byte.slash path
  let above := (List.range (elements.length - 1)).map fun n =>
    Bytes.join [Byte.slash] (elements.take (n + 1))
  (above.filter (!·.isEmpty)).map (· ++ [Byte.slash])

def makeDirectories : Except FileError FileTree :=
  match t.find path with
  | .ok .directory => .ok t
  | .ok (.file _) => .error ⟨.makeDirectory, path, .notDirectory⟩
  | .error _ => (ancestors path ++ [path]).foldlM makeDirectory t

def filesIn : List Bytes :=
  match t.locate path with
  | .error _ => []
  | .ok place => t.entries.filterMap fun (other, entry) =>
    match entry with
    | .file _ => if other.dropLast = place then other.getLast? else none
    | .directory => none

def pathText : Bytes :=
  match place with
  | [Byte.slash] :: rest => Byte.slash :: Bytes.join [Byte.slash] rest
  | place => Bytes.join [Byte.slash] place

def isInside : Bool :=
  !place.head?.any fun first => first == Path.dotDot || first == [Byte.slash]

/-- The files in the working directory with their paths, in the order of the
paths. -/
def files (t : FileTree) : List (Bytes × Bytes) :=
  let files := t.entries.filterMap fun (path, entry) =>
    match entry with
    | .file content =>
      if isInside path then some (pathText path, content) else none
    | .directory => none
  files.mergeSort fun a b => Bytes.le a.1 b.1

def changesFrom (old t : FileTree) : FileTree :=
  ⟨t.entries.filter fun (place, entry) => old.entries.lookup place != some entry⟩

end FileTree

end LuaGloss

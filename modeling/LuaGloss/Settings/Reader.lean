import LuaGloss.Settings
import LuaGloss.Yaml.Meaning

/-!
# Reading settings

Settings are written as a mapping.  Every key that it names replaces the usual
choice; keys that mean nothing are ignored together with their values, and of a
key that is named twice the last value counts.  A value that is left out or null
is empty.
-/

namespace LuaGloss

inductive SettingsFault where
  /-- The text is no YAML. -/
  | malformed (cause : Yaml.Fault)
  /-- A value has another kind than its key asks for. -/
  | wrongType
  /-- A mapping is merged with something that is none. -/
  | wrongMerge
  /-- An anchored node contains itself. -/
  | endless
  /-- Nearly all of the document is reached through aliases. -/
  | excessive
  | invalid (cause : SettingsError)
  deriving DecidableEq, Repr

def SettingsFault.text : SettingsFault → Bytes
  | .malformed cause => utf8 "failed to parse config: yaml: " ++ cause.text
  | .wrongType => utf8 "failed to parse config: yaml: unmarshal errors"
  | .wrongMerge =>
    utf8 "failed to parse config: yaml: map merge requires map or sequence " ++
      utf8 "of maps as the value"
  | .endless => utf8 "failed to parse config: yaml: anchor value contains itself"
  | .excessive =>
    utf8 "failed to parse config: yaml: document contains excessive aliasing"
  | .invalid cause => cause.text

namespace Yaml

/-- How many nodes have been read, and how many of them through aliases. -/
structure Effort where
  nodes : Nat := 0
  aliased : Nat := 0
  deriving DecidableEq, Repr

namespace Effort

def low : Nat := 400000

def high : Nat := 4000000

/-- Whether too great a part of the nodes was aliased.  The part that is allowed
goes down from ninety-nine to ten in a hundred. -/
def isExcessive (e : Effort) : Bool :=
  let allowed : Nat := 99 * (high - low) - 89 * (min (max e.nodes low) high - low)
  100 < e.aliased && 1000 < e.nodes && e.nodes * allowed < e.aliased * 100 *
    (high - low)

end Effort

abbrev DecoderM := StateT Effort (Except SettingsFault)

/-- The anchored nodes of a document, and those of them that are being read
through aliases. -/
structure Decoder where
  document : Document
  active : List Nat := []

namespace Decoder

def count (d : Decoder) : DecoderM Unit := do
  let e ← get
  let e : Effort :=
    ⟨e.nodes + 1, if d.active.isEmpty then e.aliased else e.aliased + 1⟩
  if e.isExcessive then throw .excessive
  set e

def enter (d : Decoder) (node : Yaml) : DecoderM (Decoder × Yaml) := do
  d.count
  match node with
  | .alias_ target =>
    if d.active.contains target then throw .endless
    let inner := { d with active := target :: d.active }
    inner.count
    match d.document.anchored.lookup target with
    | some node => return (inner, node)
    | none => throw .endless
  | node => return (d, node)

def resolve (tag : Bytes) (isImplicit : Bool) (text : Bytes) : DecoderM Scalar :=
  StateT.lift ((Scalar.resolve tag isImplicit text).mapError .malformed)

def toText (d : Decoder) (node : Yaml) : DecoderM Bytes := do
  match ← d.enter node with
  | (_, .scalar tag isImplicit text) =>
    match ← resolve tag isImplicit text with
    | .null => return []
    | .bool _ text | .text text => return text
  | _ => throw .wrongType

def toBool (d : Decoder) (node : Yaml) : DecoderM Bool := do
  match ← d.enter node with
  | (_, .scalar tag isImplicit text) =>
    match ← resolve tag isImplicit text with
    | .null => return false
    | .bool value _ => return value
    | .text _ => throw .wrongType
  | _ => throw .wrongType

def toCollection (d : Decoder) (zero : α) (read : Decoder → Yaml → DecoderM α)
    (node : Yaml) : DecoderM α := do
  match ← d.enter node with
  | (_, .scalar tag isImplicit text) =>
    match ← resolve tag isImplicit text with
    | .null => return zero
    | _ => throw .wrongType
  | (inner, node) => read inner node

def toList (d : Decoder) (item : Decoder → Yaml → DecoderM α) (node : Yaml) :
    DecoderM (List α) :=
  d.toCollection [] (fun d node => do
    match node with
    | .sequence items => items.mapM (item d)
    | _ => throw .wrongType) node

/-- The nodes that are merged into a mapping, in the order in which they take
effect: of several the first one wins. -/
def mergedNodes : Yaml → List Yaml
  | .sequence items => items.reverse
  | node => [node]

/-- Changes a record by the entries of a mapping and of the mappings that are
merged into it. -/
def changeRecord (change : Decoder → α → Bytes → Yaml → DecoderM α) :
    (fuel : Nat) → Decoder → α → List (Yaml × Yaml) → DecoderM α
  | 0, _, _, _ => throw .endless
  | fuel + 1, d, record, entries =>
    let merge (record : α) (node : Yaml) : DecoderM α := do
      match ← d.enter node with
      | (inner, .mapping entries) => changeRecord change fuel inner record entries
      | _ => throw .wrongMerge
    entries.foldlM (fun record (key, value) => do
      if isMerge key then (mergedNodes value).foldlM merge record
      else change d record (← d.toText key) value) record

def toRecord (d : Decoder) (start zero : α)
    (change : Decoder → α → Bytes → Yaml → DecoderM α) (node : Yaml) :
    DecoderM α :=
  d.toCollection zero (fun d node => do
    match node with
    | .mapping entries =>
      changeRecord change (d.document.depth * (d.document.anchored.length + 1))
        d start entries
    | _ => throw .wrongType) node

end Decoder

end Yaml

open LuaGloss.Yaml

namespace CommandSetting

def empty : CommandSetting := ⟨[], [], [], false, false⟩

def change (d : Decoder) (command : CommandSetting) (key : Bytes) (value : Yaml) :
    DecoderM CommandSetting := do
  if key = utf8 "name" then return { command with name := ← d.toText value }
  else if key = utf8 "tag" then return { command with tag := ← d.toText value }
  else if key = utf8 "kind" then return { command with kind := ← d.toText value }
  else if key = utf8 "param" then
    return { command with takesParam := ← d.toBool value }
  else if key = utf8 "baseType" then
    return { command with isBaseType := ← d.toBool value }
  else return command

def ofYaml (d : Decoder) (node : Yaml) : DecoderM CommandSetting :=
  d.toRecord .empty .empty change node

end CommandSetting

namespace Settings

def empty : Settings := ⟨[], [], [], []⟩

def change (d : Decoder) (s : Settings) (key : Bytes) (value : Yaml) :
    DecoderM Settings := do
  if key = utf8 "output" then return { s with output := ← d.toText value }
  else if key = utf8 "language" then return { s with language := ← d.toText value }
  else if key = utf8 "extensions" then
    return { s with extensions := ← d.toList Decoder.toText value }
  else if key = utf8 "commands" then
    return { s with commands := ← d.toList CommandSetting.ofYaml value }
  else return s

/-- The settings that a document makes.  The document counts as a node of its
own. -/
def ofDocument (document : Document) : Except SettingsFault Settings := do
  let d : Decoder := { document }
  let read : DecoderM Settings := d.toRecord .default .empty change document.root
  return (← read.run ⟨1, 0⟩).1

def read (content : Bytes) : Except SettingsFault Settings := do
  let settings ←
    match ← (Yaml.parse content).mapError .malformed with
    | some document => ofDocument document
    | none => pure .default
  match settings.error? with
  | some error => throw (.invalid error)
  | none => return settings

end Settings

end LuaGloss

import LuaGloss.Yaml.Scan

/-!
# YAML documents

The first document of a stream, as a tree.  An alias stands for the node that
was last anchored under its name, which may be a node that the alias itself is
part of; so aliases stay in the tree, and the anchored nodes are kept beside it.
-/

namespace LuaGloss.Yaml

structure Builder where
  scanner : Scanner
  /-- The anchors so far, the last one first, with the numbers of their
  nodes. -/
  anchors : List (Bytes × Nat) := []
  /-- The anchored nodes that are complete. -/
  anchored : List (Nat × Yaml) := []
  /-- What the handles of tags stand for. -/
  handles : List (Bytes × Bytes) := []

abbrev BuilderM := EStateM Fault Builder

namespace Builder

def onScanner (action : ScanM α) : BuilderM α := fun b =>
  match action b.scanner with
  | .ok a scanner => .ok a { b with scanner }
  | .error fault scanner => .error fault { b with scanner }

def peek : BuilderM Token := onScanner Scanner.peek

def skip : BuilderM Unit := onScanner Scanner.skip

def accept (t : Token) : BuilderM Bool := do
  if (← peek) = t then
    skip
    return true
  else return false

def separator (isFirst : Bool) : BuilderM Unit := do
  unless isFirst do
    unless ← accept .flowEntry do throw .unexpectedToken

def anchor? : BuilderM (Option Bytes) := do
  match ← peek with
  | .anchor name =>
    skip
    return some name
  | _ => return none

def tag? : BuilderM (Option Bytes) := do
  match ← peek with
  | .tag handle suffix =>
    skip
    if handle.isEmpty then return some suffix
    else
      match (← get).handles.lookup handle with
      | some meaning => return some (meaning ++ suffix)
      | none => throw .unknownHandle
  | _ => return none

def properties : BuilderM (Option Bytes × Option Bytes) := do
  match ← anchor? with
  | some name => return (some name, ← tag?)
  | none =>
    match ← tag? with
    | some tag => return (← anchor?, some tag)
    | none => return (none, none)

def anchoring (name : Option Bytes) (build : BuilderM Yaml) : BuilderM Yaml := do
  match name with
  | none => build
  | some name =>
    let number := (← get).anchors.length
    modify fun b => { b with anchors := (name, number) :: b.anchors }
    let node ← build
    modify fun b => { b with anchored := (number, node) :: b.anchored }
    return node

def openTag : Bytes := [Byte.bang]

def scalarOf (tag : Option Bytes) (isPlain : Bool) (text : Bytes) : Yaml :=
  match tag with
  | none => .scalar [] isPlain text
  | some tag => .scalar tag (tag == openTag) text

def missingScalar (tag : Option Bytes) : Yaml :=
  match tag with
  | none => .empty
  | some tag => .scalar tag false []

mutual

/-- A node.  Only in a block context may it be a block collection, and only
there a sequence that is not indented. -/
def node : (fuel : Nat) → (isBlock mayHang : Bool) → BuilderM Yaml
  | 0, _, _ => throw .unexpectedToken
  | fuel + 1, isBlock, mayHang => do
    match ← peek with
    | .alias_ name =>
      skip
      match (← get).anchors.lookup name with
      | some number => return .alias_ number
      | none => throw .unknownAnchor
    | _ =>
      let (anchor, tag) ← properties
      anchoring anchor
        (content fuel isBlock mayHang (anchor.isSome || tag.isSome) tag)

/-- The content of a node, which may be missing if there is an anchor or a
tag. -/
def content :
    (fuel : Nat) → (isBlock mayHang mayMiss : Bool) → (tag : Option Bytes) →
    BuilderM Yaml
  | 0, _, _, _, _ => throw .unexpectedToken
  | fuel + 1, isBlock, mayHang, mayMiss, tag => do
    let first ← peek
    match first with
    | .scalar isPlain text =>
      skip
      return scalarOf tag isPlain text
    | .flowSequenceStart =>
      skip
      return .sequence (← flowItems fuel true)
    | .flowMappingStart =>
      skip
      return .mapping (← flowEntries fuel true)
    | _ =>
      if mayHang && first == .blockEntry then
        return .sequence (← hangingItems fuel)
      else if isBlock && first == .blockSequenceStart then
        skip
        return .sequence (← blockItems fuel)
      else if isBlock && first == .blockMappingStart then
        skip
        return .mapping (← blockEntries fuel)
      else if mayMiss then return missingScalar tag
      else throw .unexpectedToken

def nodeUnless (ends : List Token) :
    (fuel : Nat) → (isBlock mayHang : Bool) → BuilderM Yaml
  | 0, _, _ => throw .unexpectedToken
  | fuel + 1, isBlock, mayHang => do
    if ends.contains (← peek) then return .empty else node fuel isBlock mayHang

def blockItems : (fuel : Nat) → BuilderM (List Yaml)
  | 0 => throw .unexpectedToken
  | fuel + 1 => do
    if ← accept .blockEntry then
      let item ← nodeUnless [.blockEntry, .blockEnd] fuel true false
      return item :: (← blockItems fuel)
    else if ← accept .blockEnd then return []
    else throw .unexpectedToken

/-- The items of a sequence that is not indented, which ends with the first
token that starts no item. -/
def hangingItems : (fuel : Nat) → BuilderM (List Yaml)
  | 0 => throw .unexpectedToken
  | fuel + 1 => do
    if ← accept .blockEntry then
      let item ← nodeUnless [.blockEntry, .key, .value, .blockEnd] fuel true false
      return item :: (← hangingItems fuel)
    else return []

def blockEntries : (fuel : Nat) → BuilderM (List (Yaml × Yaml))
  | 0 => throw .unexpectedToken
  | fuel + 1 => do
    if ← accept .key then
      let key ← nodeUnless [.key, .value, .blockEnd] fuel true true
      let value ← valueUnless [.key, .value, .blockEnd] fuel true
      return (key, value) :: (← blockEntries fuel)
    else if ← accept .blockEnd then return []
    else throw .unexpectedToken

def valueUnless (ends : List Token) :
    (fuel : Nat) → (isBlock : Bool) → BuilderM Yaml
  | 0, _ => throw .unexpectedToken
  | fuel + 1, isBlock => do
    if ← accept .value then nodeUnless ends fuel isBlock isBlock else return .empty

/-- The items of a flow sequence; an item can be an entry of a mapping.  If the
key of such an entry is missing, the token in its place is lost. -/
def flowItems : (fuel : Nat) → (isFirst : Bool) → BuilderM (List Yaml)
  | 0, _ => throw .unexpectedToken
  | fuel + 1, isFirst => do
    if ← accept .flowSequenceEnd then return []
    separator isFirst
    if ← accept .flowSequenceEnd then return []
    else if ← accept .key then
      let isMissing :=
        [Token.value, .flowEntry, .flowSequenceEnd].contains (← peek)
      let key ← if isMissing then do skip; pure .empty else node fuel false false
      let value ← valueUnless [.flowEntry, .flowSequenceEnd] fuel false
      return .mapping [(key, value)] :: (← flowItems fuel false)
    else
      let item ← node fuel false false
      return item :: (← flowItems fuel false)

def flowEntries : (fuel : Nat) → (isFirst : Bool) → BuilderM (List (Yaml × Yaml))
  | 0, _ => throw .unexpectedToken
  | fuel + 1, isFirst => do
    if ← accept .flowMappingEnd then return []
    separator isFirst
    if ← accept .flowMappingEnd then return []
    else if ← accept .key then
      let key ← nodeUnless [.value, .flowEntry, .flowMappingEnd] fuel false false
      let value ← valueUnless [.flowEntry, .flowMappingEnd] fuel false
      return (key, value) :: (← flowEntries fuel false)
    else
      let key ← node fuel false false
      return (key, .empty) :: (← flowEntries fuel false)

end

def version : Nat × Nat := (1, 1)

/-- Reads the directives in front of a document, where `hasVersion` says that
the version has been given. -/
def directives : (fuel : Nat) → (hasVersion : Bool) → BuilderM Unit
  | 0, _ => throw .unexpectedToken
  | fuel + 1, hasVersion => do
    match ← peek with
    | .versionDirective major minor =>
      if hasVersion || (major, minor) != version then throw .badDirective
      skip
      directives fuel true
    | .tagDirective handle meaning =>
      let handles := (← get).handles
      if (handles.lookup handle).isSome then throw .badDirective
      modify fun b => { b with handles := handles ++ [(handle, meaning)] }
      skip
      directives fuel hasVersion
    | _ => return

def languageTag : Bytes := utf8 "tag:yaml.org,2002:"

def usualHandles : List (Bytes × Bytes) :=
  [(utf8 "!", utf8 "!"), (utf8 "!!", languageTag)]

/-- Tokens that may follow the explicit start of a document that is empty. -/
def endsDocument (t : Token) : Bool :=
  t.isDirective || [Token.documentStart, .documentEnd, .streamEnd].contains t

/-- The first document, if there is one, up to the token that follows it.
Directives have to be followed by its explicit start. -/
def document (fuel : Nat) : BuilderM (Option Yaml) := do
  let first ← peek
  if first = .streamEnd then return none
  directives fuel false
  modify fun b => { b with handles := b.handles ++ usualHandles }
  let isExplicit := first.isDirective || first == .documentStart
  if isExplicit then
    unless ← accept .documentStart do throw .unexpectedToken
  let isEmpty := isExplicit && endsDocument (← peek)
  let root ← if isEmpty then pure .empty else node fuel true false
  let _ ← peek
  return some root

end Builder

def parse (content : Bytes) : Except Fault (Option Document) :=
  let scanner := Scanner.ofBytes content
  let fuel := 16 * scanner.cursor.limit
  match (Builder.document fuel).run { scanner } with
  | .ok (some root) b => .ok (some ⟨root, b.anchored, fuel⟩)
  | .ok none _ => .ok none
  | .error fault _ => .error fault

end LuaGloss.Yaml

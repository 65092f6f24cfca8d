import LuaGloss.Yaml.Token

/-!
# Scanning YAML

In block collections the indentation says where a collection starts and ends,
and whether a scalar is a key shows only at the colon behind it.  The scanner
therefore remembers where a key may have started and puts the tokens that
announce it there afterwards.  Tokens are scanned on demand: a token is handed
out as soon as it is clear that no key starts with it.
-/

namespace LuaGloss.Yaml

/-- A place where a key may have started. -/
structure KeyPlace where
  isPossible : Bool
  /-- Whether nothing but a key may stand there. -/
  isRequired : Bool
  /-- The number of the token that is the key. -/
  number : Nat
  index : Nat
  line : Nat
  column : Nat

/-- The number of characters within which the colon behind a key has to
follow. -/
def KeyPlace.reach : Nat := 1024

structure Scanner where
  cursor : Cursor
  /-- The tokens that have been scanned and not been handed out. -/
  queue : List Token := []
  /-- The number of tokens that have been handed out. -/
  taken : Nat := 0
  /-- Whether the first token of the queue can be handed out. -/
  isReady : Bool := false
  /-- The column of the innermost block collection. -/
  indent : Int := -1
  /-- The columns of the block collections around it. -/
  indents : List Int := []
  /-- Whether a key may start here. -/
  mayKey : Bool := true
  /-- The number of flow collections that are open. -/
  flow : Nat := 0
  /-- The last possible key of every flow collection that is open, innermost
  first, and of the block around them. -/
  keys : List KeyPlace := [⟨false, false, 0, 0, 0, 0⟩]
  /-- The tokens that wait because they may be keys: their numbers, and the
  levels of `keys` that know more. -/
  waiting : List (Nat × Nat) := []

abbrev ScanM := EStateM Fault Scanner

namespace Scanner

def onCursor (action : CursorM α) : ScanM α := fun s =>
  match action s.cursor with
  | .ok a cursor => .ok a { s with cursor }
  | .error fault cursor => .error fault { s with cursor }

def inFlow (s : Scanner) : Bool := s.flow != 0

def nextNumber (s : Scanner) : Nat := s.taken + s.queue.length

def depthLimit : Nat := 10000

variable (t : Token)

def push : ScanM Unit := modify fun s => { s with queue := s.queue ++ [t] }

/-- Puts a token in front of the one with the given number, or behind all others
if that one has been handed out. -/
def insert (number : Nat) (t : Token) : ScanM Unit := modify fun s =>
  if number < s.taken then { s with queue := s.queue ++ [t] }
  else
    let place := number - s.taken
    { s with queue := s.queue.take place ++ t :: s.queue.drop place }

def pushIndicator : ScanM Unit := do
  onCursor Cursor.skip
  push t

def setMayKey (mayKey : Bool) : ScanM Unit := modify fun s => { s with mayKey }

def dropWaiting (number : Nat) : ScanM Unit :=
  modify fun s => { s with waiting := s.waiting.filter (·.1 != number) }

/-- Changes the possible key of a level, where the block around all flow
collections is level zero. -/
def setKey (level : Nat) (key : KeyPlace) : ScanM Unit :=
  modify fun s => { s with keys := s.keys.set (s.flow - level) key }

/-- The key that may have started on a level.  A key does not reach over the end
of its line, nor too far. -/
def liveKey? (level : Nat) : ScanM (Option KeyPlace) := do
  let s ← get
  match if level ≤ s.flow then s.keys[s.flow - level]? else none with
  | none => return none
  | some key =>
    let isStale :=
      key.line < s.cursor.line || key.index + KeyPlace.reach < s.cursor.index
    if !key.isPossible then return none
    else if !isStale then return some key
    else if key.isRequired then throw .missingColon
    else
      setKey level { key with isPossible := false }
      return none

def removeKey : ScanM Unit := do
  let s ← get
  match s.keys with
  | key :: _ =>
    if key.isPossible then
      if key.isRequired then throw .missingColon
      setKey s.flow { key with isPossible := false }
      dropWaiting key.number
  | [] => return

def saveKey : ScanM Unit := do
  let s ← get
  if s.mayKey then
    removeKey
    let isRequired := !s.inFlow && s.indent == s.cursor.column
    setKey s.flow ⟨true, isRequired, s.nextNumber, s.cursor.index,
      s.cursor.line, s.cursor.column⟩
    modify fun s =>
      { s with
        waiting := (s.nextNumber, s.flow) ::
          s.waiting.filter (·.1 != s.nextNumber) }

/-- The block collections that are left at a column: the innermost of them and
those around it, and how many are closed. -/
def closeTo (column : Int) (indent : Int) : List Int → Nat × Int × List Int
  | [] => (0, indent, [])
  | outer :: more =>
    if column < indent then
      let (n, indent, indents) := closeTo column outer more
      (n + 1, indent, indents)
    else (0, indent, outer :: more)

/-- Closes the block collections that are indented deeper than the column. -/
def unroll (column : Int) : ScanM Unit := modify fun s =>
  if s.inFlow then s
  else
    let (n, indent, indents) := closeTo column s.indent s.indents
    { s with indent, indents, queue := s.queue ++ List.replicate n .blockEnd }

/-- Opens a block collection in front of the token with the given number, if the
column is indented deeper than the last one. -/
def roll (column number : Nat) (t : Token) : ScanM Unit := do
  let s ← get
  if !s.inFlow && s.indent < (column : Int) then
    if depthLimit ≤ s.indents.length then throw .tooDeep
    set { s with indent := (column : Int), indents := s.indent :: s.indents }
    insert number t

def rollHere : ScanM Unit := do
  let s ← get
  unless s.inFlow || s.mayKey do throw .misplacedIndicator
  roll s.cursor.column s.nextNumber t

/-- Skips blanks, comments and line breaks.  Tabs count as blanks only where no
key may start.  At the start of a line one character is passed over if a byte
order mark stood in front of what can be seen. -/
def skipGapWithin : (fuel : Nat) → ScanM Unit
  | 0 => return
  | fuel + 1 => do
    onCursor (Cursor.need 1)
    let s ← get
    if s.cursor.column = 0 ∧ s.cursor.isMarked then onCursor Cursor.skip
    let areTabsBlank := s.inFlow || !s.mayKey
    onCursor (Cursor.skipWhile fun code =>
      code == 0x20 || (areTabsBlank && code == 0x09))
    if (← onCursor Cursor.peek) = codeOf '#' then
      onCursor (Cursor.skipWhile (!isLineEnd ·))
    if isBreak (← onCursor Cursor.peek) then
      discard (onCursor Cursor.takeBreak)
      unless s.inFlow do setMayKey true
      skipGapWithin fuel

/-- Closes all block collections in front of a token that bounds documents. -/
def closeBlocks : ScanM Unit := do
  unroll (-1)
  removeKey
  setMayKey false

def fetchStreamEnd : ScanM Unit := do
  modify fun s =>
    if s.cursor.column = 0 then s
    else
      { s with
        cursor := { s.cursor with column := 0, line := s.cursor.line + 1 } }
  closeBlocks
  push .streamEnd

def fetchDirective : ScanM Unit := do
  closeBlocks
  push (← onCursor directive)

def fetchBound : ScanM Unit := do
  closeBlocks
  for _ in [0:2] do onCursor Cursor.skip
  pushIndicator t

def fetchFlowStart : ScanM Unit := do
  saveKey
  let s ← get
  if depthLimit ≤ s.flow then throw .tooDeep
  let key : KeyPlace :=
    ⟨false, false, s.nextNumber, s.cursor.index, s.cursor.line, s.cursor.column⟩
  set { s with flow := s.flow + 1, keys := key :: s.keys, mayKey := true }
  pushIndicator t

def fetchFlowEnd : ScanM Unit := do
  removeKey
  match (← get).keys with
  | key :: outer :: more =>
    dropWaiting key.number
    modify fun s => { s with flow := s.flow - 1, keys := outer :: more }
  | _ => pure ()
  setMayKey false
  pushIndicator t

def fetchFlowEntry : ScanM Unit := do
  removeKey
  setMayKey true
  pushIndicator .flowEntry

def fetchBlockEntry : ScanM Unit := do
  rollHere .blockSequenceStart
  removeKey
  setMayKey true
  pushIndicator .blockEntry

def fetchKey : ScanM Unit := do
  rollHere .blockMappingStart
  removeKey
  setMayKey !(← get).inFlow
  pushIndicator .key

def fetchValue : ScanM Unit := do
  let level := (← get).flow
  match ← liveKey? level with
  | some key =>
    insert key.number .key
    roll key.column key.number .blockMappingStart
    setKey level { key with isPossible := false }
    dropWaiting key.number
    setMayKey false
  | none =>
    rollHere .blockMappingStart
    setMayKey !(← get).inFlow
  pushIndicator .value

def fetchWord (scan : CursorM Token) : ScanM Unit := do
  saveKey
  setMayKey false
  push (← onCursor scan)

def fetchBlockScalar (isLiteral : Bool) : ScanM Unit := do
  removeKey
  setMayKey true
  let text ← onCursor (blockScalar isLiteral (← get).indent)
  push (.scalar false text)

def fetchPlain : ScanM Unit := do
  saveKey
  let s ← get
  let (text, isBroken) ← onCursor (plainScalar s.inFlow s.indent)
  setMayKey isBroken
  push (.scalar true text)

/-- Characters that no plain scalar starts with, unless something follows that
makes them part of a word. -/
def isIndicator (code : Nat) : Bool :=
  isFlowMark code || code == 0x60
    || ['-', ':', '#', '&', '*', '!', '|', '>', '\'', '"', '%', '@'].any
    (codeOf · == code)

def startsPlain (inFlow : Bool) (code following : Nat) : Bool :=
  !(isGap code || isIndicator code)
    || (code == codeOf '-' && !isBlank following)
    || (!inFlow && (code == codeOf '?' || code == codeOf ':') && !isGap following)

def fetchFrom (code following : Nat) : ScanM Unit := do
  let s ← get
  if code = codeOf '[' then fetchFlowStart .flowSequenceStart
  else if code = 0x7B then fetchFlowStart .flowMappingStart
  else if code = codeOf ']' then fetchFlowEnd .flowSequenceEnd
  else if code = 0x7D then fetchFlowEnd .flowMappingEnd
  else if code = codeOf ',' then fetchFlowEntry
  else if code = codeOf '-' ∧ isGap following then fetchBlockEntry
  else if code = codeOf '?' ∧ (s.inFlow ∨ isGap following) then fetchKey
  else if code = codeOf ':' ∧ (s.inFlow ∨ isGap following) then fetchValue
  else if code = codeOf '*' then fetchWord (Token.alias_ <$> anchorName)
  else if code = codeOf '&' then fetchWord (Token.anchor <$> anchorName)
  else if code = codeOf '!' then fetchWord tag
  else if code = codeOf '|' ∧ !s.inFlow then fetchBlockScalar true
  else if code = codeOf '>' ∧ !s.inFlow then fetchBlockScalar false
  else if code = codeOf '\'' ∨ code = codeOf '"' then
    fetchWord (Token.scalar false <$> quotedScalar code)
  else if startsPlain s.inFlow code following then fetchPlain
  else throw .unexpectedCharacter

def fetch : ScanM Unit := do
  skipGapWithin (← get).cursor.limit
  let s ← get
  unroll s.cursor.column
  onCursor (Cursor.need 4)
  let code ← onCursor Cursor.peek
  let isStart ← onCursor (Cursor.atMark '-')
  let isEnd ← onCursor (Cursor.atMark '.')
  if code = 0 then fetchStreamEnd
  else if s.cursor.column = 0 ∧ code = codeOf '%' then fetchDirective
  else if isStart then fetchBound .documentStart
  else if isEnd then fetchBound .documentEnd
  else fetchFrom code (← onCursor (Cursor.peekAt 1))

def mustWait : ScanM Bool := do
  let s ← get
  match s.waiting.lookup s.taken with
  | some level => return (← liveKey? level).isSome
  | none => return false

def fillWithin : (fuel : Nat) → ScanM Unit
  | 0 => throw .unexpectedToken
  | fuel + 1 => do
    let isShort := (← get).queue.isEmpty
    let isOpen ← if isShort then pure true else mustWait
    if isOpen then
      fetch
      fillWithin fuel

def peek : ScanM Token := do
  unless (← get).isReady do
    fillWithin (← get).cursor.limit
    modify fun s => { s with isReady := true }
  return (← get).queue.headD .streamEnd

def skip : ScanM Unit :=
  modify fun s =>
    { s with
      queue := s.queue.tail
      taken := s.taken + 1
      isReady := false
      waiting := s.waiting.filter (s.taken < ·.1) }

def ofBytes (content : Bytes) : Scanner :=
  { cursor := .ofStream (.ofBytes content) }

end Scanner

end LuaGloss.Yaml

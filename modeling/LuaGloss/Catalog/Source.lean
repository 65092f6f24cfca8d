import LuaGloss.Recorder
import LuaGloss.Syntax.Statement
import LuaGloss.Token.Stream

/-!
# Reading a source

A source is split into tokens, its grammar is checked, and its declarations and
comments go into the catalog.  A source with a lexical error contributes nothing
but its text; a source with a syntax error contributes what stands before the
error.
-/

namespace LuaGloss

namespace Recorder

def leaveFile (r : Recorder) : Recorder :=
  r.mapReader fun reader => (reader.closeRegions 0).discard

def recordSource (catalog : Catalog) (file source : Bytes) (tokens : List Token)
    (outline : Outline) : Recorder :=
  let r := (start catalog file source tokens).record outline
  if outline.error.isNone then r.leaveFile else r

end Recorder

/-- The outline of a source, given its tokens on all channels up to the end of
the input. -/
def Outline.ofSource (source : Bytes) (tokens : List Token) : Outline :=
  let main := tokens.filter (!·.kind.isComment)
  Outline.ofTokens source ((main.getLast?.map (·.pos)).getD .none) main.dropLast

namespace Catalog

/-- Reads a source; the error, if there is one, and what is known afterwards. -/
def readSource (c : Catalog) (file source : Bytes) :
    Option SourceError × Catalog :=
  let c := { c with declarations := c.declarations.addSource ⟨file, source⟩ }
  let tokens := tokenize source
  match tokens.findSome? (SourceError.ofToken? file) with
  | some error => (some error, c)
  | none =>
    let outline := Outline.ofSource source tokens
    let after := (Recorder.recordSource c file source tokens outline).catalog
    match outline.error with
    | some error => (some (.syntactic file error), after)
    | none =>
      (none, after.note (.read file (tokens.filter (!·.kind.isComment)).length))

end Catalog

namespace Recorder

def idle (catalog : Catalog) : Recorder := start catalog [] [] []

/-- Gets a recorder ready for another source, which is kept.  Whatever the last
source has left behind is dropped, also if an error has cut it short. -/
def reset (r : Recorder) (file source : Bytes) : Recorder :=
  let catalog :=
    { r.catalog with
      declarations := r.catalog.declarations.addSource ⟨file, source⟩ }
  { r with
    file
    source
    reader := .ofCatalog catalog [0]
    comments := []
    locals := []
    lastScope := 0
    depth := 0
    last := none
    header := none
    headerLine := 0 }

def readNext (r : Recorder) (file source : Bytes) :
    Option SourceError × Recorder :=
  let r := r.reset file source
  let tokens := tokenize source
  match tokens.findSome? (SourceError.ofToken? file) with
  | some error => (some error, r)
  | none =>
    let outline := Outline.ofSource source tokens
    let r := { r with comments := .ofTokens tokens }.record outline
    match outline.error with
    | some error => (some (.syntactic file error), r)
    | none =>
      (none, r.leaveFile.mapCatalog
        (·.note (.read file (tokens.filter (!·.kind.isComment)).length)))

end Recorder

end LuaGloss

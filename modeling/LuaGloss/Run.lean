import LuaGloss.Catalog.Source
import LuaGloss.Page.Press
import LuaGloss.Settings

/-!
# A run

A run reads any number of sources into one catalog under given settings, and
writes the documentation.
-/

namespace LuaGloss

structure Run where
  settings : Settings
  catalog : Catalog
  /-- The files that were read without an error. -/
  files : List Bytes

namespace Run

def start (settings : Settings) : Run :=
  let catalog := Catalog.empty settings.vocabulary
  let language :=
    if settings.language.isEmpty then catalog.docs.language else settings.language
  ⟨settings, catalog.mapDocs fun d => { d with language }, []⟩

def readSource (run : Run) (file source : Bytes) : Option SourceError × Run :=
  let (error, catalog) :=
    (run.catalog.note (.reading file source.length)).readSource file source
  match error with
  | some error => (some error, { run with catalog })
  | none => (none, { run with catalog, files := run.files ++ [file] })

def openErrorText (file : Bytes) (error : FileError) : Bytes :=
  utf8 "failed to read file " ++ file ++ utf8 ": " ++ error.text

def readErrorText (file : Bytes) (error : SourceError) : Bytes :=
  utf8 "failed to parse file " ++ file ++ utf8 ": " ++ error.text

/-- The path of the index: the given one, or else the one in the settings. -/
def indexPath (run : Run) (output : Bytes) : Bytes :=
  if !output.isEmpty then output
  else if !run.settings.output.isEmpty then run.settings.output
  else Settings.defaultOutput

/-- Writes the documentation.  The pages go into the directory of the index. -/
def generate (run : Run) (tree : FileTree) (output : Bytes) :
    Option PressError × Run × FileTree :=
  let path := run.indexPath output
  match run.catalog.publish tree (Path.directory path) (Path.base path) with
  | (some error, catalog, tree) => (some error, { run with catalog }, tree)
  | (none, catalog, tree) =>
    let notice :=
      Notice.generated path run.files.length catalog.declarations.items.size
        catalog.docs.warnings
    (none, { run with catalog := catalog.note notice }, tree)

def generateErrorText (error : PressError) : Bytes :=
  utf8 "failed to generate documentation: " ++ error.text

def finalize (run : Run) : Run := { run with catalog := run.catalog.finalize }

end Run

end LuaGloss

import LuaGloss.Proofs.Page.Press
import LuaGloss.Proofs.Source.Walk
import LuaGloss.Run

/-!
# Runs are made of steps

A run reads sources, with or without errors, and writes the documentation, also
with or without an error.  Whatever it does to its catalog is a sequence of
steps, so that the catalog stays consistent.
-/

namespace LuaGloss

namespace Run

variable {run : Run} (settings : Settings)

/-- A run before anything has been read, with any commands and any language. -/
def fresh (vocabulary : Vocabulary) (language : Bytes) : Run :=
  ⟨settings, (Catalog.empty vocabulary).mapDocs fun d => { d with language }, []⟩

theorem start_eq_fresh :
    start settings = fresh settings settings.vocabulary
      (if settings.language.isEmpty then utf8 "Lua" else settings.language) := rfl

/-- Reads sources one after the other.  A source with an error does not keep the
next ones from being read. -/
def readAll (run : Run) (sources : List SourceText) : Run :=
  sources.foldl (fun run source => (run.readSource source.file source.text).2) run

/-- What the press does when the documentation is written. -/
def press (run : Run) (tree : FileTree) (output : Bytes) :
    EStateM.Result PressError Press Unit :=
  run.catalog.press tree (Path.directory (run.indexPath output))
    (Path.base (run.indexPath output))

theorem consistent_fresh (vocabulary : Vocabulary) (language : Bytes) :
    (fresh settings vocabulary language).catalog.Consistent := .empty _ _

theorem reaches_readSource (hc : run.catalog.Consistent) (file source : Bytes) :
    run.catalog.Reaches (run.readSource file source).2.catalog := by
  have hnote :
      run.catalog.Reaches (run.catalog.note (.reading file source.length)) :=
    .single (.note _ _)
  have hread :=
    hnote.trans (Catalog.reaches_readSource (hnote.consistent hc) file source)
  unfold readSource
  dsimp only
  split
  · exact hread
  · exact hread

theorem readAll_append (run : Run) (before after : List SourceText) :
    run.readAll (before ++ after) = (run.readAll before).readAll after :=
  List.foldl_append

theorem reaches_readAll (hc : run.catalog.Consistent) (sources : List SourceText) :
    run.catalog.Reaches (run.readAll sources).catalog := by
  induction sources generalizing run with
  | nil => exact .refl _
  | cons source sources ih =>
      have hread := reaches_readSource hc source.file source.text
      exact hread.trans (ih (hread.consistent hc))

theorem consistent_readAll (vocabulary : Vocabulary) (language : Bytes)
    (sources : List SourceText) :
    ((fresh settings vocabulary language).readAll sources).catalog.Consistent := by
  have hc := consistent_fresh settings vocabulary language
  exact (reaches_readAll hc sources).consistent hc

theorem generate_eq (run : Run) (tree : FileTree) (output : Bytes) :
    run.generate tree output =
      match run.press tree output with
      | .ok _ p =>
        (none,
          { run with
            catalog := p.catalog.note (.generated (run.indexPath output)
              run.files.length p.catalog.declarations.items.size
              p.catalog.docs.warnings) },
          p.tree)
      | .error e p => (some e, { run with catalog := p.catalog }, p.tree) := by
  unfold generate press Catalog.publish
  dsimp only
  cases run.catalog.press tree (Path.directory (run.indexPath output))
    (Path.base (run.indexPath output)) with
  | ok _ p => rfl
  | error e p => rfl

theorem generate_fst {tree : FileTree} {output : Bytes} :
    (run.generate tree output).1 = none ↔
      ∃ p, run.press tree output = .ok () p := by
  rw [generate_eq]
  split
  next p hpress => simp [hpress]
  next e p hpress => simp [hpress]

/-- Writing the documentation leaves the catalog alone, or it resolves the
references, renders, and may note the end. -/
theorem catalog_generate (hc : run.catalog.Consistent)
    (tree : FileTree) (output : Bytes) :
    let c' := (run.generate tree output).2.1.catalog
    c' = run.catalog ∨ ∃ c, run.catalog.finalize.Renders c ∧
      (c' = c ∨ ∃ notice, c' = c.note notice) := by
  have hresult := Catalog.press_result hc tree
    (Path.directory (run.indexPath output)) (Path.base (run.indexPath output))
  rw [generate_eq]
  unfold press
  split
  next p hpress =>
    rw [hpress] at hresult
    exact .inr ⟨p.catalog, hresult.1, .inr ⟨_, rfl⟩⟩
  next e p hpress =>
    rw [hpress] at hresult
    exact hresult.imp id fun hrenders => ⟨p.catalog, hrenders, .inl rfl⟩

theorem reaches_generate (hc : run.catalog.Consistent)
    (tree : FileTree) (output : Bytes) :
    run.catalog.Reaches (run.generate tree output).2.1.catalog := by
  rcases catalog_generate hc tree output with hsame | ⟨c, hrenders, hcatalog⟩
  · rw [hsame]
    exact .refl _
  · have hreaches := (Catalog.reaches_finalize hc).trans hrenders.reaches
    rcases hcatalog with hcatalog | ⟨notice, hcatalog⟩
    · rwa [hcatalog]
    · rw [hcatalog]
      exact hreaches.tail (.note _ _)

end Run

end LuaGloss

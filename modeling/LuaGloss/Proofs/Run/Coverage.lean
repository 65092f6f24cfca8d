import LuaGloss.Proofs.Page.Items
import LuaGloss.Proofs.Run.Steps

/-!
# What the documentation of a run covers

After a run, the pages define what there is to show, and every item is shown
once or not at all.  Items that are not to be rendered are never shown.  Of
those that are, some are out of reach: what is below a value of an enumeration,
and the entries of a table that its owner does not hold in the end, because the
constructor was only a part of the initializer.
-/

namespace LuaGloss

namespace Catalog

theorem Refines.note (c : Catalog) (notice : Notice) :
    c.Refines (c.note notice) where
  vocabulary := rfl
  declarations := rfl
  language := rfl
  isFinal := rfl
  groups := rfl
  listedGroups := rfl
  block _ b hb := ⟨b.refId, hb, fun _ h => h⟩
  attached _ _ h := h
  blank item block hnone hsome := by
    change c.docs.blockOf? item = some block at hsome
    simp [hnone] at hsome

theorem Shows.mono {c c' : Catalog} {pages : List Page} (h : c.Shows pages)
    (hc : c.Consistent) (hrefines : c.Refines c') : c'.Shows pages := by
  constructor
  · rw [hrefines.shown hc]
    exact h.definitions.mono hrefines
  · rw [hrefines.shown hc]
    exact h.own.mono hrefines

end Catalog

namespace Run

/-- What a successful run leaves behind. -/
theorem generate_shows {run : Run} (hc : run.catalog.Consistent)
    {tree : FileTree} {output : Bytes} (h : (run.generate tree output).1 = none) :
    ∃ p, run.press tree output = .ok () p ∧
      run.catalog.finalize.Refines (run.generate tree output).2.1.catalog ∧
      (run.generate tree output).2.1.catalog.Shows p.pages := by
  obtain ⟨p, hpress⟩ := generate_fst.1 h
  have hfinal := (Catalog.reaches_finalize hc).consistent hc
  have hresult :=
    Catalog.press_result hc tree (Path.directory (run.indexPath output))
      (Path.base (run.indexPath output))
  rw [show run.catalog.press tree _ _ = .ok () p from hpress] at hresult
  obtain ⟨hrenders, hshows⟩ := hresult
  rw [generate_eq, hpress]
  have hnote :=
    Catalog.Refines.note p.catalog
      (.generated (run.indexPath output) run.files.length
      p.catalog.declarations.items.size p.catalog.docs.warnings)
  exact ⟨p, rfl, hrenders.refines.trans hnote,
    hshows.mono (hrenders.consistent hfinal) hnote⟩

/-- The pages of a run define each item once if it is to be rendered and they
get down to it, and otherwise not at all.  Whether an item is to be rendered is
settled when all sources have been read. -/
theorem items_defined_iff_reached (settings : Settings)
    (vocabulary : Vocabulary) (language : Bytes) (sources : List SourceText)
    (tree : FileTree) (output : Bytes)
    (h : (((fresh settings vocabulary language).readAll sources).generate tree
      output).1 = none) :
    let run := (fresh settings vocabulary language).readAll sources
    let c := (run.generate tree output).2.1.catalog
    ∃ p, run.press tree output = .ok () p ∧
      c.Defines (p.pages.flatMap Page.definitions) c.shown ∧
      (∀ id, c.isRendered id = run.finalize.catalog.isRendered id) ∧
      ∀ id, (Entity.items c.shown).count id = if c.isRendered id = true ∧
      c.IsReached id then 1 else 0 := by
  intro run c
  have hc : run.catalog.Consistent :=
    consistent_readAll settings vocabulary language sources
  have hfinal := (Catalog.reaches_finalize hc).consistent hc
  have hc' : c.Consistent := (reaches_generate hc tree output).consistent hc
  obtain ⟨p, hpress, hrefines, hshows⟩ := generate_shows hc h
  refine ⟨p, hpress, hshows.definitions, hrefines.isRendered hfinal, ?_⟩
  intro id
  rw [(Catalog.nodup_items_shown hc'.declarations).count]
  simp only [Catalog.mem_items_shown hc'.declarations]

/-- An enumeration with a value that holds a table with one entry; all are
documented. -/
private def nestedValue : List SourceText :=
  [⟨utf8 "a.lua",
    utf8 "--! \\luaenum\ne=\x7b\n--! d\nA=\x7b\n--! d\nx=1\n\x7d\n\x7d\n"⟩]

private def nestedValueRun : Run :=
  (fresh .default .default (utf8 "Lua")).readAll nestedValue

private def nestedValueCatalog : Catalog :=
  (nestedValueRun.generate .empty (utf8 "index.xml")).2.1.catalog

/-- The value is defined; its entry is not, although it is to be rendered. -/
theorem nestedValue_defined :
    (nestedValueRun.generate .empty (utf8 "index.xml")).1 = none ∧
      (Entity.items nestedValueCatalog.shown).count 1 = 1 ∧
      nestedValueCatalog.isRendered 2 = true ∧
      (Entity.items nestedValueCatalog.shown).count 2 = 0 := by
  have hdone : (nestedValueRun.generate .empty (utf8 "index.xml")).1 =
      none := by decide +kernel
  have hvalue : nestedValueCatalog.isRendered 1 = true ∧
      nestedValueCatalog.IsReached 1 := by decide +kernel
  have hentry : nestedValueCatalog.isRendered 2 = true ∧
      ¬nestedValueCatalog.IsReached 2 := by decide +kernel
  obtain ⟨p, -, -, -, hcount⟩ :=
    items_defined_iff_reached .default .default (utf8 "Lua") nestedValue .empty
      (utf8 "index.xml") hdone
  refine ⟨hdone, (hcount 1).trans (if_pos hvalue), hentry.1,
    (hcount 2).trans (if_neg ?_)⟩
  exact fun hboth => hentry.2 hboth.2

end Run

end LuaGloss

import LuaGloss.Proofs.Run.Coverage
import LuaGloss.Proofs.Run.Files
import LuaGloss.Proofs.Run.Language

/-!
# Writing the documentation again

A run that has written its documentation can do so again.  Blocks and reference
ids that were missing the first time are there the second time, and nothing else
has changed that pages show, so that the same files are written.
-/

namespace LuaGloss

namespace Run

/-- When the documentation is written once more with the same output, the same
files are written, whatever the tree is by then.  If it is what was left the
first time, it stays as it is. -/
theorem generate_again_writes_same (settings : Settings)
    (vocabulary : Vocabulary) (language : Bytes) (sources : List SourceText)
    (tree tree' : FileTree) (output : Bytes) :
    let run := (fresh settings vocabulary language).readAll sources
    let again := (run.generate tree output).2.1
    (run.generate tree output).1 = none → (again.generate tree' output).1 = none →
      again.written tree' output = run.written tree output ∧
        run.Wrote tree output ∧ again.Wrote tree' output ∧
        (tree' = (run.generate tree output).2.2 →
          (again.generate tree' output).2.2.Same tree') := by
  intro run again h h'
  have hc : run.catalog.Consistent :=
    consistent_readAll settings vocabulary language sources
  have hagain : again.catalog.Consistent :=
    (reaches_generate hc tree output).consistent hc
  obtain ⟨p, hpress⟩ := generate_fst.1 h
  obtain ⟨p', hpress'⟩ := generate_fst.1 h'
  obtain ⟨hrenders, hsettles, hwritten, hwrote⟩ := press_settles hc hpress
  obtain ⟨hrenders', hsettles', hwritten', hwrote'⟩ := press_settles hagain hpress'
  have hnoted :
      again = { run with
        catalog := p.catalog.note (.generated (run.indexPath output)
          run.files.length p.catalog.declarations.items.size
          p.catalog.docs.warnings) } := by
    change (run.generate tree output).2.1 = _
    rw [generate_eq, hpress]
  have hrefines : p.catalog.Refines again.catalog := by
    rw [hnoted]
    exact .note _ _
  -- The final state has been reached the first time, so that the second time
  -- begins where the first one ended.
  have hfinal : again.catalog.finalize = again.catalog := by
    apply Catalog.finalize_of_isFinal
    rw [(hrenders.refines.trans hrefines).isFinal]
    exact run.catalog.language_finalize.2
  rw [hfinal] at hrenders'
  have hsheets : (⟨p.index, p.pages⟩ : Sheets) = ⟨p'.index, p'.pages⟩ :=
    (hsettles p'.catalog (hrefines.trans hrenders'.refines)).symm.trans
      hsettles'.eq
  obtain ⟨hindex, hpages⟩ := Sheets.mk.inj hsheets
  have hpath : again.indexPath output = run.indexPath output := by rw [hnoted]; rfl
  have hfiles : again.written tree' output = run.written tree output := by
    rw [hwritten, hwritten', Press.files, Press.files, directory, directory,
      hpath, hindex, hpages]
  refine ⟨hfiles, hwrote, hwrote', ?_⟩
  intro hrow
  obtain ⟨made, hmade, hresult⟩ := hwrote
  obtain ⟨made', hmade', hresult'⟩ := hwrote'
  rw [hfiles] at hresult'
  rw [directory, hpath] at hmade'
  rw [← hrow] at hresult
  exact FileTree.same_again hmade hresult hmade' hresult'

/-- A class refers to its base type and to a function, which both come later. -/
private def forwardReferences : List SourceText :=
  [⟨utf8 "a.lua",
    utf8 "--! \\luaclass\n--! \\luabasetype B\n--! \\see f\nD=\x7bx=1\x7d\n" ++
      utf8 "--! \\luaclass\nB=\x7b\x7d\nfunction f() end\n"⟩]

private def forwardRun : Run :=
  (fresh .default .default (utf8 "Lua")).readAll forwardReferences

private def forwardAgain : Run × FileTree :=
  (forwardRun.generate .empty (utf8 "out/index.xml")).2

/-- Four files are written twice, and the tree does not change the second
time. -/
theorem forwardReferences_written_twice :
    (forwardRun.generate .empty (utf8 "out/index.xml")).1 = none ∧
      (forwardAgain.1.generate forwardAgain.2 (utf8 "out/index.xml")).1 = none ∧
      (forwardRun.written .empty (utf8 "out/index.xml")).map Prod.fst =
        [utf8 "out/class_d.xml", utf8 "out/class_b.xml", utf8 "out/global.xml",
          utf8 "out/index.xml"] ∧
      forwardAgain.1.written forwardAgain.2 (utf8 "out/index.xml") =
        forwardRun.written .empty (utf8 "out/index.xml") ∧
      (forwardAgain.1.generate forwardAgain.2 (utf8 "out/index.xml")).2.2.Same
        forwardAgain.2 := by
  have hfirst : (forwardRun.generate .empty (utf8 "out/index.xml")).1 =
      none := by decide +kernel
  have hsecond :
      (forwardAgain.1.generate forwardAgain.2 (utf8 "out/index.xml")).1 =
        none := by decide +kernel
  obtain ⟨hfiles, -, -, hsame⟩ :=
    generate_again_writes_same .default .default (utf8 "Lua")
      forwardReferences .empty
      forwardAgain.2 (utf8 "out/index.xml") hfirst hsecond
  exact ⟨hfirst, hsecond, by decide +kernel, hfiles, hsame rfl⟩

end Run

end LuaGloss

import LuaGloss.Proofs.Page.Contents
import LuaGloss.Proofs.Run.Files

/-!
# The index of a run lists its pages

What the views say of the index and the pages of a run holds of the files that
the run writes.
-/

namespace LuaGloss

namespace Run

/-- When the documentation is written without an error, the index lists the
pages in the order in which they are written, with their kinds and ids, and with
the members that they define.  Of two pages with one id, both are listed, and
the later one stays. -/
theorem index_agrees_with_pages (settings : Settings) (vocabulary : Vocabulary)
    (language : Bytes) (sources : List SourceText) (tree : FileTree)
    (output : Bytes)
    (h : (((fresh settings vocabulary language).readAll sources).generate tree
      output).1 = none) :
    let run := (fresh settings vocabulary language).readAll sources
    ∃ p, run.press tree output = .ok () p ∧
      run.written tree output = p.files (run.directory output)
        (Path.base (run.indexPath output)) ∧
      run.Wrote tree output ∧ Sheets.Agree ⟨p.index, p.pages⟩ := by
  intro run
  have hc : run.catalog.Consistent :=
    consistent_readAll settings vocabulary language sources
  obtain ⟨p, hpress⟩ := generate_fst.1 h
  obtain ⟨-, hsettles, hwritten, hwrote⟩ := press_settles hc hpress
  refine ⟨p, hpress, hwritten, hwrote, ?_⟩
  rw [← hsettles.eq]
  exact View.agree_sheets p.catalog

/-- A class with a structure, an enumeration with a footnote and an entry of a
plain table in it, and a group. -/
private def nestedCompounds : List SourceText :=
  [⟨utf8 "a.lua",
    utf8 "--! \\group g\n\n--! \\luaclass\n--! \\ingroup g\nc=\x7b\n" ++
      utf8 "--! \\luastruct\ns=\x7bx=1\x7d,\n--! \\luaenum\n--! \\footnote n\n" ++
      utf8 "e=\x7bA=1,B=2\x7d,\n--! t\nt=\x7b\n--! y\ny=1\x7d\x7d\n" ++
      utf8 "function f() end\n"⟩]

private def nestedCompoundsRun : Run :=
  (fresh .default .default (utf8 "Lua")).readAll nestedCompounds

/-- The structure comes before the class around it, and the group is last. -/
theorem nestedCompounds_index :
    (nestedCompoundsRun.generate .empty (utf8 "index.xml")).1 = none ∧
      (nestedCompoundsRun.written .empty (utf8 "index.xml")).map Prod.fst =
        [utf8 "struct_c_s.xml", utf8 "class_c.xml", utf8 "global.xml",
          utf8 "group_g.xml", utf8 "index.xml"] ∧
      ∃ p, nestedCompoundsRun.press .empty (utf8 "index.xml") = .ok () p ∧
      Sheets.Agree ⟨p.index, p.pages⟩ := by
  have hdone : (nestedCompoundsRun.generate .empty (utf8 "index.xml")).1 =
      none := by decide +kernel
  obtain ⟨p, hpress, -, -, hagree⟩ :=
    index_agrees_with_pages .default .default (utf8 "Lua") nestedCompounds
      .empty (utf8 "index.xml") hdone
  exact ⟨hdone, by decide +kernel, p, hpress, hagree⟩

end Run

end LuaGloss

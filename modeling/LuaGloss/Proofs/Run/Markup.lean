import LuaGloss.Proofs.Page.Markup
import LuaGloss.Proofs.Run.Files
import LuaGloss.Proofs.Run.Language

/-!
# All files of a run are well-formed documents

Reference ids are made of harmless bytes, and the language is written as it was
given.  As long as the language does no harm, no name, comment, value or path in
any source can spoil a document.
-/

namespace LuaGloss

theorem Catalog.Consistent.harmless {c : Catalog} (hc : c.Consistent)
    (hlanguage : Xml.IsValue c.docs.language) : c.Harmless := by
  refine ⟨hlanguage, ?_⟩
  intro id
  unfold Catalog.givenId
  cases hb : c.docs.block? id with
  | none => exact .nil
  | some b =>
      cases hrefId : b.refId with
      | none =>
          simp only [Option.bind_some, hrefId]
          exact .nil
      | some refId =>
          have hid :=
            (hc.docs.numbered.used id b.links refId
              (Docs.links?_of_block? hb) hrefId).2.1
          simpa [hrefId] using Xml.isValue_of_isId hid

theorem Press.isDocument_of_mem_files {p : Press}
    (h : Sheets.Proper ⟨p.index, p.pages⟩) (directory name : Bytes) :
    ∀ file ∈ p.files directory name, Xml.IsDocument file.2 := by
  intro file hfile
  rcases List.mem_append.1 hfile with hmem | hindex
  · obtain ⟨page, hpage, rfl⟩ := List.mem_map.1 hmem
    exact Xml.isDocument_document (by decide) (h.pages page hpage)
  · rw [List.mem_singleton.1 hindex]
    exact Xml.isDocument_document (by decide) h.index

namespace Run

/-- When the documentation is written without an error, every file is a
well-formed document, unless the language holds one of the bytes that could end
a value, begin a tag or begin an entity. -/
theorem generate_writes_documents (settings : Settings)
    (vocabulary : Vocabulary) (language : Bytes) (sources : List SourceText)
    (tree : FileTree) (output : Bytes)
    (hlanguage : ∀ b ∈ language, b ≠ Byte.apostrophe ∧ b ≠ Byte.less ∧
      b ≠ Byte.ampersand) :
    let run := (fresh settings vocabulary language).readAll sources
    (run.generate tree output).1 = none →
      (∀ file ∈ run.written tree output, Xml.IsDocument file.2) ∧
      run.Wrote tree output := by
  intro run h
  have hc : run.catalog.Consistent :=
    consistent_readAll settings vocabulary language sources
  obtain ⟨p, hpress⟩ := generate_fst.1 h
  obtain ⟨hrenders, hsettles, hwritten, hwrote⟩ := press_settles hc hpress
  have hread : run.catalog.docs.language = language := language_readAll _ sources
  have hkept : p.catalog.docs.language = language :=
    hrenders.refines.language.trans (run.catalog.language_finalize.1.trans hread)
  have hvalue : Xml.IsValue p.catalog.docs.language := by
    rw [hkept]
    apply Xml.IsText.of_all
    rw [List.all_eq_true]
    intro b hb
    obtain ⟨hapostrophe, hless, hampersand⟩ := hlanguage b hb
    simp [Xml.isValueByte, Xml.isContentByte, hapostrophe, hless, hampersand]
  have hfinal := (Catalog.reaches_finalize hc).consistent hc
  have hproper := View.proper_sheets ((hrenders.consistent hfinal).harmless hvalue)
  rw [hsettles.eq] at hproper
  refine ⟨?_, hwrote⟩
  rw [hwritten]
  exact Press.isDocument_of_mem_files hproper _ _

/-- A source in which names, values, comments and the name of the file have
something to be escaped. -/
private def spoiledSource : List SourceText :=
  [⟨utf8 "a<'&.lua",
    utf8 "--! \\group g A<B & 'C'\n\n--! \\ingroup g\n--! \\luaclass\n" ++
      utf8 "--! </para> &\n--! \\see x<y\n" ++
      utf8 "x=\x7by='<&>\"'\x7d\nfunction f(...) end\n"⟩]

private def spoiledRun : Run :=
  (fresh .default .default (utf8 "Lua")).readAll spoiledSource

/-- The pages of the class, of the global members and of the group, and the
index, are well-formed documents. -/
theorem spoiledSource_documents :
    (spoiledRun.generate .empty (utf8 "out/index.xml")).1 = none ∧
      (spoiledRun.written .empty (utf8 "out/index.xml")).map Prod.fst =
        [utf8 "out/class_x.xml", utf8 "out/global.xml", utf8 "out/group_g.xml",
          utf8 "out/index.xml"] ∧
      (∀ file ∈ spoiledRun.written .empty (utf8 "out/index.xml"),
        Xml.IsDocument file.2) ∧
      spoiledRun.Wrote .empty (utf8 "out/index.xml") := by
  have hdone : (spoiledRun.generate .empty (utf8 "out/index.xml")).1 =
      none := by decide +kernel
  have hlanguage : ∀ b ∈ utf8 "Lua", b ≠ Byte.apostrophe ∧ b ≠ Byte.less ∧
      b ≠ Byte.ampersand := by decide +kernel
  refine ⟨hdone, by decide +kernel, ?_⟩
  exact generate_writes_documents .default .default (utf8 "Lua") spoiledSource
    .empty _ hlanguage hdone

end Run

end LuaGloss

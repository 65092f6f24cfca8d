import LuaGloss.Proofs.Page.Accompaniment
import LuaGloss.Proofs.Run.CommentLog
import LuaGloss.Proofs.Run.Coverage
import LuaGloss.Proofs.Run.Files

/-!
# Footnotes of a run

Which footnotes come with an item in the documentation is decided by the
comments that went into its block: each stretch of them gives the item one
footnote if it has any footnote command, and the footnote says what stands
between the first footnote command and the second one.  Further footnotes of the
same stretch are not shown, and values of an enumeration are shown without
footnotes.
-/

namespace LuaGloss

open LuaGloss.Xml LuaGloss.Page

namespace View

def ShowsNote (c : Catalog) (note : BlockId) (wording : Wording) : Prop :=
  ∃ seeAlso, footnote c note =
    block "memberdef" [attr "kind" (utf8 "footnote"), attr "id" (c.givenId note)]
      (line "name" [] (c.givenId note) ++
        (block "briefdescription" [] (paragraphElements wording.brief) ++
          block "detaileddescription" []
            (paragraphElements wording.detailed ++ references c seeAlso)))

theorem showsNote_of_isNote {c : Catalog} {own note : BlockId}
    {wording : Wording} (h : c.docs.IsNote own note wording) :
    ShowsNote c note wording := by
  obtain ⟨notes, hface⟩ := h
  obtain ⟨b, hb, hbface⟩ := Option.map_eq_some_iff.1 hface
  obtain rfl : (⟨b.brief, b.detailed⟩ : Wording) = wording :=
    congrArg BlockFace.wording hbface
  refine ⟨b.seeAlso, ?_⟩
  simp only [footnote, description, hb]

/-- The footnotes of a block are those that the log gives to it, in this order,
and each is shown with its wording, unless comments went into the footnote
itself.  Only if the block is itself a footnote can it have others before. -/
def NotesFollow (vocabulary : Vocabulary) (log : List LoggedComments) (c : Catalog)
    (own : BlockId) (b : Block) : Prop :=
  ∃ nested notes, b.footnotes = nested ++ notes ∧
    (¬b.kind.IsFootnote → nested = []) ∧
    List.Forall₂ (fun note wording =>
        (∀ entry ∈ log, entry.block ≠ note) → ShowsNote c note wording)
      notes (LoggedComments.wordings vocabulary log own)

end View

/-- Comments that describe no group give one footnote for all their footnote
commands. -/
def LoggedComments.GivesOneNote (vocabulary : Vocabulary)
    (entry : LoggedComments) : Prop :=
  let tokens := entry.comments.flatMap CommentToken.ofComment
  (∀ token ∈ tokens, token.describesGroup = false) →
    ((Stretches.ofComments vocabulary entry.comments).gists.filterMap
        Gist.wording?).length =
      min 1 (tokens.countP CommentToken.isFootnote)

theorem Catalog.Logs.notesFollow {vocabulary : Vocabulary} {c c' : Catalog}
    {log : List LoggedComments} (h : Logs vocabulary c log c')
    (hc : c.docs.Accounted []) (hc' : c'.Consistent) {own : BlockId} {b : Block}
    (hb : c'.docs.block? own = some b) :
    View.NotesFollow vocabulary log c' own b := by
  have haccounted := h.written.accounted hc
  rw [List.nil_append] at haccounted
  obtain ⟨nested, notes, hnotes, hnormal, hall⟩ :=
    haccounted.notes own _ (Docs.face?_of_block? hb)
  have hkind (note : BlockId) (hnote : note ∈ notes) :
      ∃ b', c'.docs.block? note = some b' ∧ b'.kind = .footnote own := by
    have hmem : note ∈ b.face.footnotes := by
      rw [hnotes]
      exact List.mem_append_right nested hnote
    obtain ⟨links, hlinks, hkind⟩ :=
      hc'.docs.noted own _ (Docs.links?_of_block? hb) note hmem
    obtain ⟨b', hb', rfl⟩ := Option.map_eq_some_iff.1 hlinks
    exact ⟨b', hb', hkind⟩
  refine ⟨nested, notes, hnotes, hnormal, ?_⟩
  refine ((List.forall₂_and_left _ _).2 ⟨hkind, hall⟩).imp ?_
  rintro note wording ⟨⟨b', hb', hfootnote⟩, hnote⟩ hfree
  refine View.showsNote_of_isNote (hnote ?_)
  rintro ⟨block, g⟩ hwriting rfl
  obtain ⟨entry, hentry, hwriting⟩ := List.mem_flatMap.1 hwriting
  -- The block of a group is not a footnote.
  rcases List.mem_cons.1 (List.of_mem_zip hwriting).1 with rfl | hgroup
  · exact hfree entry hentry rfl
  · obtain ⟨face, hface, group, hkind⟩ := h.isGroup hentry hgroup
    obtain rfl := Option.some.inj ((Docs.face?_of_block? hb').symm.trans hface)
    simp [Block.face, hfootnote] at hkind

namespace Run

/-- What is shown of a run without errors, told by a log of its comments.  There
is a log that consists of passages of the sources, none of them twice.  The
footnotes of an item are shown with the item, and they follow every log.
Comments that describe no group give one footnote for all their footnote
commands; what they say of groups goes into the blocks of the groups.  An item
that is the value of an enumeration is shown without footnotes, unless its block
describes a group. -/
theorem footnotes_follow_log (settings : Settings) (vocabulary : Vocabulary)
    (language : Bytes) (sources : List SourceText) (tree : FileTree)
    (output : Bytes)
    (h : (((fresh settings vocabulary language).readAll sources).generate tree
      output).1 = none) :
    let beginning := fresh settings vocabulary language
    let run := beginning.readAll sources
    let c := (run.generate tree output).2.1.catalog
    ∃ p, run.press tree output = .ok () p ∧ run.Wrote tree output ∧
      c.Defines (p.pages.flatMap Page.definitions) c.shown ∧
      (∃ log, Catalog.Logs vocabulary beginning.catalog log c ∧
        (log.map (·.comments)).Subperm (sources.flatMap SourceText.passages)) ∧
      (∀ log, Catalog.Logs vocabulary beginning.catalog log c →
        ∀ entry ∈ log, entry.GivesOneNote vocabulary ∧
          ∀ group ∈ entry.groups,
            ∃ b, c.docs.block? group = some b ∧ b.kind.IsGroup) ∧
      ∀ form id own b, (form, .item id) ∈ c.shown →
        c.docs.blockOf? id = some own → c.docs.block? own = some b →
        (∀ log, Catalog.Logs vocabulary beginning.catalog log c →
          View.NotesFollow vocabulary log c own b) ∧
        View.Accompanied c form own p.pages ∧
        (form = .value → ¬b.kind.IsGroup →
          ∀ note ∈ b.footnotes, ∀ form', (form', .footnote note) ∉ c.shown) := by
  intro beginning run c
  have hc : run.catalog.Consistent :=
    consistent_readAll settings vocabulary language sources
  obtain ⟨p, hpress, -, hshows⟩ := generate_shows hc h
  obtain ⟨hrenders, hsettles, -, hwrote⟩ := press_settles hc hpress
  have hcatalog : ∃ notice, c = p.catalog.note notice := by
    refine ⟨.generated (run.indexPath output) run.files.length
      p.catalog.declarations.items.size p.catalog.docs.warnings, ?_⟩
    change (run.generate tree output).2.1.catalog = _
    rw [generate_eq, hpress]
  have hc' : c.Consistent := (reaches_generate hc tree output).consistent hc
  obtain ⟨notice, hnotice⟩ := hcatalog
  have hpages : p.pages = (View.sheets c).pages := by
    rw [hnotice, hsettles _ (.note _ _)]
  refine ⟨p, hpress, hwrote, hshows.definitions, ?_, ?_, ?_⟩
  · obtain ⟨log, hlog, hpassages⟩ :=
      exists_log settings vocabulary language sources hrenders
    have hnoted : Catalog.Logs vocabulary p.catalog [] c := by
      rw [hnotice]
      exact .calm (.of_blocks rfl)
    refine ⟨log ++ [], hlog.trans hnoted, ?_⟩
    rwa [List.append_nil]
  · intro log hlog entry hentry
    refine ⟨Stretches.length_wordings_ofComments vocabulary, ?_⟩
    intro group hgroup
    obtain ⟨face, hface, hkind⟩ := hlog.isGroup hentry hgroup
    obtain ⟨b, hb, rfl⟩ := Option.map_eq_some_iff.1 hface
    exact ⟨b, hb, hkind⟩
  · intro form id own b hshown hown hb
    refine ⟨fun log hlog => hlog.notesFollow (.empty language) hc' hb, ?_, ?_⟩
    · have hnumber : c.blockNumber id = own := by simp [Catalog.blockNumber, hown]
      rw [hpages, ← hnumber]
      exact View.accompanied_of_shown hc' hshown
    · rintro rfl hkind note hnote form'
      exact Catalog.not_shown_of_value hc' hshown hown hb
        (fun group hgroup => hkind ⟨group, hgroup⟩) hnote form'

private def annotatedTwice : List SourceText :=
  [⟨utf8 "a.lua", utf8 "--! text \\footnote a \\footnote b\nx = 1\n"⟩]

private def annotatedTwiceRun : Run :=
  (fresh .default .default (utf8 "Lua")).readAll annotatedTwice

private def annotatedTwiceCatalog : Catalog :=
  (annotatedTwiceRun.generate .empty (utf8 "index.xml")).2.1.catalog

/-- Only one of them is shown with the variable. -/
theorem annotatedTwice_shown_once :
    (annotatedTwiceRun.generate .empty (utf8 "index.xml")).1 = none ∧
      (CommentToken.ofComment (utf8 " text \\footnote a \\footnote b")).countP
        CommentToken.isFootnote = 2 ∧
      ∃ p log, annotatedTwiceRun.press .empty (utf8 "index.xml") = .ok () p ∧
        Catalog.Logs .default (fresh .default .default (utf8 "Lua")).catalog log
          annotatedTwiceCatalog ∧
        (LoggedComments.wordings .default log 0).length = 1 ∧
        View.footnotes annotatedTwiceCatalog 0 =
          View.footnote annotatedTwiceCatalog 1 ∧
        View.Accompanied annotatedTwiceCatalog .member 0 p.pages := by
  have hdone :
      (annotatedTwiceRun.generate .empty (utf8 "index.xml")).1 = none := by
    decide +kernel
  have htwo :
      (CommentToken.ofComment (utf8 " text \\footnote a \\footnote b")).countP
        CommentToken.isFootnote = 2 := by
    decide +kernel
  have hshown : (Form.member, Entity.item 0) ∈ annotatedTwiceCatalog.shown := by
    decide +kernel
  have hown : annotatedTwiceCatalog.docs.blockOf? 0 = some 0 := by decide +kernel
  have hblock : (annotatedTwiceCatalog.docs.block? 0).any
      (fun b => b.kind == .normal && b.footnotes == [1]) = true := by
    decide +kernel
  obtain ⟨b, hb, hface⟩ := (Option.any_eq_true _ _).1 hblock
  obtain ⟨hkind, hfootnotes⟩ : b.kind = .normal ∧ b.footnotes = [1] := by
    simpa using hface
  have hnotFootnote : ¬b.kind.IsFootnote := by
    rintro ⟨parent, hparent⟩
    simp [hkind] at hparent
  obtain ⟨p, hpress, -, -, ⟨log, hlog, -⟩, -, hall⟩ :=
    footnotes_follow_log .default .default (utf8 "Lua") annotatedTwice .empty
      (utf8 "index.xml") hdone
  obtain ⟨hfollow, haccompanied, -⟩ := hall .member 0 0 b hshown hown hb
  obtain ⟨nested, notes, hnotes, hnormal, hwordings⟩ := hfollow log hlog
  have hone : notes = [1] := by
    rw [hnormal hnotFootnote, List.nil_append] at hnotes
    exact hnotes.symm.trans hfootnotes
  refine ⟨hdone, htwo, p, log, hpress, hlog, ?_, ?_, haccompanied⟩
  · rw [← hwordings.length_eq, hone]
    rfl
  · have hb' : annotatedTwiceCatalog.docs.block? 0 = some b := hb
    simp [View.footnotes, hb', hfootnotes]

end Run

end LuaGloss

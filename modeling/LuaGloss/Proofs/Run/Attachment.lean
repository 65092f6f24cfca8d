import LuaGloss.Proofs.Run.Steps

/-!
# Blocks stay where they are

A block gets to an item in several ways: as the comment before a declaration,
as a comment behind it, because it names the item, at once or when all sources
have been read, or because a page needs it.  In all of them the block belongs
to that item alone, and no step takes it away while it says something.

Before all sources have been read a block can be emptied again, by a title that
replaces another one.  After that, blocks go on saying what they say.
-/

namespace LuaGloss

namespace Catalog

/-- A step leaves an item a block that says something. -/
theorem Consistent.blockOf?_step {c c' : Catalog} (hc : c.Consistent)
    (hstep : c.Step c') {item : ItemId} {b : Block}
    (hb : c.blockOf? item = some b) (hfilled : b.isEmpty = false) :
    c'.docs.blockOf? item = c.docs.blockOf? item := by
  rcases hstep.blockOf? hc item with hsame | hempty
  · exact hsame
  · simp [hb, hfilled] at hempty

/-- Every item whose block says something keeps it, and the block still says
something. -/
def KeepsBlocks (c c' : Catalog) : Prop :=
  ∀ item b, c.blockOf? item = some b → b.isEmpty = false →
    c'.docs.blockOf? item = c.docs.blockOf? item ∧
      ∃ b', c'.blockOf? item = some b' ∧ b'.isEmpty = false

namespace KeepsBlocks

variable {c c' c'' : Catalog}

theorem refl (c : Catalog) : c.KeepsBlocks c :=
  fun _ b hb hfilled => ⟨rfl, b, hb, hfilled⟩

theorem trans (h : c.KeepsBlocks c') (h' : c'.KeepsBlocks c'') :
    c.KeepsBlocks c'' := by
  intro item b hb hfilled
  obtain ⟨hsame, b', hb', hfilled'⟩ := h item b hb hfilled
  obtain ⟨hsame', hlater⟩ := h' item b' hb' hfilled'
  exact ⟨hsame'.trans hsame, hlater⟩

theorem of_sameBlocks (h : c.docs.SameBlocks c'.docs) : c.KeepsBlocks c' := by
  intro item b hb hfilled
  have hsame : c'.docs.blockOf? item = c.docs.blockOf? item :=
    congrArg (·.lookup item) h.attached
  refine ⟨hsame, b, ?_, hfilled⟩
  obtain ⟨block, hblock, hb⟩ := Option.bind_eq_some_iff.1 hb
  refine Option.bind_eq_some_iff.2 ⟨block, hsame.trans hblock, ?_⟩
  rwa [Docs.block?, h.blocks]

theorem of_step (hc : c.Consistent) (hstep : c.Step c')
    (hblocks : c.docs.Blockwise (fun b b' => b.isEmpty = false →
      b'.isEmpty = false) c'.docs) :
    c.KeepsBlocks c' := by
  intro item b hb hfilled
  have hsame := hc.blockOf?_step hstep hb hfilled
  obtain ⟨block, hblock, hb⟩ := Option.bind_eq_some_iff.1 hb
  obtain ⟨b', hb', hkept⟩ := hblocks block b hb
  exact ⟨hsame, b',
    Option.bind_eq_some_iff.2 ⟨block, hsame.trans hblock, hb'⟩, hkept hfilled⟩

theorem refines (h : c.Refines c') : c.KeepsBlocks c' := by
  intro item b hb hfilled
  obtain ⟨block, hblock, hb⟩ := Option.bind_eq_some_iff.1 hb
  have hsame := h.attached item block hblock
  obtain ⟨refId, hb', -⟩ := h.block block b hb
  exact ⟨hsame.trans hblock.symm, { b with refId },
    Option.bind_eq_some_iff.2 ⟨block, hsame, hb'⟩, hfilled⟩

theorem resolveOne (hc : c.Consistent) (reference : Reference) :
    c.KeepsBlocks (c.resolveOne reference) := by
  refine of_step hc (step_resolveOne hc reference) ?_
  unfold Catalog.resolveOne
  split
  · refine .modifyBlock (fun _ h => h) _ fun b _ hfilled => ?_
    simpa [Block.isEmpty, Block.isDescriptionEmpty, ← List.length_eq_zero_iff]
      using hfilled
  · exact blockwise_bindTarget (fun _ h => h) (fun _ _ h => h) _
  · exact .of_blocks (fun _ h => h) rfl

theorem resolve (hc : c.Consistent) : c.KeepsBlocks c.resolve := by
  have hfold (queue : List Reference) {c : Catalog} (hc : c.Consistent) :
      c.KeepsBlocks (queue.foldl Catalog.resolveOne c) := by
    induction queue generalizing c with
    | nil => exact .refl c
    | cons reference queue ih =>
        have hone := resolveOne hc reference
        exact hone.trans (ih ((step_resolveOne hc reference).consistent hc))
  rw [resolve_eq]
  exact (hfold c.docs.queue hc).trans (.of_sameBlocks ⟨rfl, rfl⟩)

theorem finalize (hc : c.Consistent) : c.KeepsBlocks c.finalize := by
  unfold Catalog.finalize
  split
  · exact .refl c
  · have hmarked := step_markFinal c
    have hresolved := resolve (hmarked.consistent hc)
    have hgrouped := (sameBlocks_assignGroups _).trans
      (Docs.SameBlocks.isRegrouping.pruneGroups
        (c.mapDocs fun d => { d with isFinal := true }).resolve.assignGroups.docs)
    have hkept : c.KeepsBlocks (c.mapDocs fun d => { d with isFinal := true }) :=
      .of_sameBlocks ⟨rfl, rfl⟩
    exact (hkept.trans hresolved).trans (.of_sameBlocks hgrouped)

end KeepsBlocks

end Catalog

namespace Run

theorem keepsBlocks_generate {run : Run} (hc : run.catalog.Consistent)
    (tree : FileTree) (output : Bytes) :
    run.catalog.KeepsBlocks (run.generate tree output).2.1.catalog := by
  rcases catalog_generate hc tree output with hsame | ⟨c, hrenders, hcatalog⟩
  · rw [hsame]
    exact .refl _
  · have hkept :=
      (Catalog.KeepsBlocks.finalize hc).trans (.refines hrenders.refines)
    rcases hcatalog with hcatalog | ⟨notice, hcatalog⟩
    · rwa [hcatalog]
    · rw [hcatalog]
      exact hkept.trans (.of_sameBlocks ⟨rfl, rfl⟩)

/-- Reading further sources, with or without errors, resolving the references
and writing the documentation, with or without success, proceed in steps from
the state before to the state after.  In every state on the way the block of an
item belongs to that item and to no other, and no step takes from an item a
block that says something.  Once the sources have been read, such blocks also
go on saying something. -/
theorem blocks_stay_attached (settings : Settings) (vocabulary : Vocabulary)
    (language : Bytes) (before after : List SourceText) (tree : FileTree)
    (output : Bytes) :
    let beginning := fresh settings vocabulary language
    let middle := beginning.readAll before
    let run := beginning.readAll (before ++ after)
    (beginning.catalog.Reaches middle.catalog ∧
        middle.catalog.Reaches run.catalog ∧
        run.catalog.Reaches run.finalize.catalog ∧
        run.catalog.Reaches (run.generate tree output).2.1.catalog ∧
        run.finalize.catalog.Reaches
          (run.finalize.generate tree output).2.1.catalog) ∧
      (run.catalog.KeepsBlocks run.finalize.catalog ∧
        run.catalog.KeepsBlocks (run.generate tree output).2.1.catalog ∧
        run.finalize.catalog.KeepsBlocks
          (run.finalize.generate tree output).2.1.catalog) ∧
      ∀ c, beginning.catalog.Reaches c →
        (∀ item block, c.docs.blockOf? item = some block →
          ∃ b, c.docs.block? block = some b ∧ b.item = some item) ∧
        (∀ item item' block, c.docs.blockOf? item = some block →
          c.docs.blockOf? item' = some block → item = item') ∧
        ∀ c' item b, c.Step c' → c.blockOf? item = some b → b.isEmpty = false →
          c'.docs.blockOf? item = c.docs.blockOf? item := by
  intro beginning middle run
  have hstart : beginning.catalog.Consistent :=
    consistent_fresh settings vocabulary language
  have hbefore : beginning.catalog.Reaches middle.catalog :=
    reaches_readAll hstart before
  have hafter : middle.catalog.Reaches run.catalog := by
    have hrest := reaches_readAll (hbefore.consistent hstart) after
    rwa [← readAll_append] at hrest
  have hc := (hbefore.trans hafter).consistent hstart
  have hfinal : run.catalog.Reaches run.finalize.catalog :=
    Catalog.reaches_finalize hc
  have hfinalized := hfinal.consistent hc
  refine ⟨⟨hbefore, hafter, hfinal, reaches_generate hc tree output,
    reaches_generate hfinalized tree output⟩, ⟨.finalize hc,
    keepsBlocks_generate hc tree output,
    keepsBlocks_generate hfinalized tree output⟩, ?_⟩
  intro c hreaches
  have hconsistent := hreaches.consistent hstart
  refine ⟨fun _ _ => Catalog.block?_of_blockOf? hconsistent,
    fun _ _ _ => hconsistent.blockOf?_inj, ?_⟩
  intro c' item b hstep hb hfilled
  exact hconsistent.blockOf?_step hstep hb hfilled

private def namedFirst : List SourceText :=
  [⟨utf8 "a.lua", utf8 "--! d\nx=1\n"⟩]

/-- A comment that names the variable again, and one that names another one. -/
private def namedAgain : List SourceText :=
  [⟨utf8 "b.lua", utf8 "--! e\n--! \\variable x\n\n--! f\n--! \\variable y\n"⟩,
    ⟨utf8 "c.lua", utf8 "y=1\n"⟩]

private def namedAgainRun : Run :=
  (fresh .default .default (utf8 "Lua")).readAll (namedFirst ++ namedAgain)

/-- The first variable keeps its own comment, also if the other one is bound to
it once more, and the second one gets the comment that waits for it. -/
theorem namedAgain_keeps_block :
    (∃ b, namedAgainRun.catalog.docs.block? 0 = some b ∧ b.item = some 0) ∧
      (namedAgainRun.catalog.bindTarget 1 0 (utf8 "x")).docs.blockOf? 0 = some 0 ∧
      namedAgainRun.finalize.catalog.docs.blockOf? 0 = some 0 ∧
      namedAgainRun.finalize.catalog.docs.blockOf? 1 = some 2 := by
  obtain ⟨⟨hbefore, hafter, -⟩, ⟨hkept, -⟩, hreached⟩ := blocks_stay_attached
    .default .default (utf8 "Lua") namedFirst namedAgain .empty (utf8 "index.xml")
  obtain ⟨hitem, -, hstep⟩ :=
    hreached namedAgainRun.catalog (hbefore.trans hafter)
  have hblock : namedAgainRun.catalog.docs.blockOf? 0 = some 0 := by decide +kernel
  have hfilled : (namedAgainRun.catalog.blockOf? 0).any (!·.isEmpty) = true := by
    decide +kernel
  obtain ⟨b, hb, hnonempty⟩ := (Option.any_eq_true _ _).1 hfilled
  replace hnonempty : b.isEmpty = false := by simpa using hnonempty
  have hbound : namedAgainRun.catalog.Step
      (namedAgainRun.catalog.bindTarget 1 0 (utf8 "x")) :=
    .bind 1 _ (by decide +kernel)
  exact ⟨hitem 0 0 hblock, (hstep _ 0 b hbound hb hnonempty).trans hblock,
    (hkept 0 b hb hnonempty).1.trans hblock, by decide +kernel⟩

end Run

end LuaGloss

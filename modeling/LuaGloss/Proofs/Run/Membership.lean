import LuaGloss.Proofs.Run.Grouping
import LuaGloss.Proofs.Run.References

/-!
# Which items are in which groups

In the end an item is in a group exactly if the block that documents it belongs
to the group and the item is shown.  All blocks of a run are gone through to put
items into groups, also those that an item had only for a while; but they belong
to no group.
-/

namespace LuaGloss

namespace Catalog

/-! ## Looking names up -/

theorem tidy_resolveOne {c : Catalog} (hd : c.docs.Tidy) {reference : Reference}
    (hblock : reference.block < c.docs.blocks.size) :
    (c.resolveOne reference).docs.Tidy ∧
    c.docs.Grows (c.resolveOne reference).docs := by
  unfold resolveOne
  split
  next item entry _ _ =>
    have hsteady :
        Docs.Steady reference.block c.docs
          (c.bindSeeAlso reference.block entry item).docs :=
      .modifyBlock _ _ fun _ => rfl
    exact ⟨hd.steady hsteady hblock, .steady hsteady⟩
  next item _ _ =>
    have hbound := bound_bindTarget hd hblock item reference.name
    exact ⟨hbound.docs, hbound.grows⟩
  next => exact ⟨hd.warn _ _ _, Nat.le_refl _, fun _ h => h⟩

theorem tidy_resolve {c : Catalog} (hd : c.docs.Tidy) : c.resolve.docs.Tidy := by
  have hfold (queue : List Reference) (c : Catalog) (hd : c.docs.Tidy)
      (hqueue : ∀ reference ∈ queue, reference.block < c.docs.blocks.size) :
        (queue.foldl resolveOne c).docs.Tidy := by
    induction queue generalizing c with
    | nil => exact hd
    | cons reference queue ih =>
        obtain ⟨hfirst, hrest⟩ := List.forall_mem_cons.1 hqueue
        obtain ⟨htidy, hgrows⟩ := tidy_resolveOne hd hfirst
        exact ih _ htidy fun other hother =>
          Nat.lt_of_lt_of_le (hrest other hother) hgrows.size
  have hall := hfold c.docs.queue c hd hd.queue
  rw [resolve_eq]
  exact ⟨hall.listed, hall.grouped, hall.replaced, hall.bare, hall.named, nofun⟩

/-! ## What is shown -/

theorem isRendered_congr {c c' : Catalog}
    (hdeclarations : c'.declarations = c.declarations)
    (hvocabulary : c'.vocabulary = c.vocabulary)
    (hblock : ∀ id, c'.blockOf? id = c.blockOf? id) (id : ItemId) :
    c'.isRendered id = c.isRendered id := by
  have hline (line : List ItemId) :
      c'.isLineRendered line = c.isLineRendered line := by
    induction line with
    | nil => rfl
    | cons id owners ih =>
        unfold isLineRendered
        simp only [item?, kindOf, isDocumentedOverload, hdeclarations,
          hvocabulary, hblock, ih]
  unfold isRendered
  rw [hdeclarations, hline]

/-! ## Items in groups -/

/-- A block of the run that puts an item into a group is the one that the item
has. -/
theorem assigned_iff {c : Catalog} (hd : c.docs.Tidy) {n : Nat}
    (hattached : c.docs.Attached n) {group : GroupId} {item : ItemId} :
    (∃ block ∈ c.docs.listedBlocks, (c.docs.block? block).bind c.assignment? =
      some (group, item)) ↔
      ∃ block b, c.docs.blockOf? item = some block ∧
        c.docs.block? block = some b ∧ b.kind = .normal ∧
        b.group = some group ∧ c.isRendered item = true := by
  constructor
  · rintro ⟨block, hlisted, hassigned⟩
    obtain ⟨b, hb, hassigned⟩ := Option.bind_eq_some_iff.1 hassigned
    obtain ⟨hgroup, hitem, hrendered⟩ := assignment?_eq_some.1 hassigned
    have hseat := Docs.seat?_of_block? hb
    obtain ⟨seat, hseat', hkind⟩ := (hd.listed block).1 hlisted
    obtain rfl := Option.some.inj (hseat.symm.trans hseat')
    refine ⟨block, b, ?_, hb, hkind, hgroup, hrendered⟩
    by_contra hother
    have hnone :=
      hd.replaced block b.seat ⟨b, item, hb, hkind, hitem, hother⟩ hseat
    exact absurd (hgroup.symm.trans hnone) nofun
  · rintro ⟨block, b, hblock, hb, hkind, hgroup, hrendered⟩
    obtain ⟨links, hlinks, hitem⟩ := hattached.item item block hblock
    rw [Docs.links?_of_block? hb] at hlinks
    obtain rfl := Option.some.inj hlinks
    refine ⟨block,
      (hd.listed block).2 ⟨b.seat, Docs.seat?_of_block? hb, hkind⟩, ?_⟩
    rw [hb]
    exact assignment?_eq_some.2 ⟨hgroup, hitem, hrendered⟩

section

variable {c : Catalog} (hgroups : c.docs.Unlinked)

include hgroups

theorem docs_grouped {α : Type} {f : Docs → α}
    (hf : ∀ (d : Docs) groups listedGroups warnings notices,
      f { d with groups, listedGroups, warnings, notices } = f d) :
    f c.grouped.docs = f c.docs := by
  obtain ⟨closers, hnests⟩ := exists_nests_assignGroups hgroups
  obtain ⟨hpruned, -⟩ :=
    (hnests.unpruned (c.collects_assigned.unlinked hgroups)).prune_roots
  calc
    f c.grouped.docs = f (c.assignGroups.docs.roots.foldl
        (Docs.pruneGroup (c.assignGroups.docs.groups.size + 1))
        c.assignGroups.docs) := hf _ _ _ _ _
    _ = f c.assignGroups.docs := (congrArg f hpruned.rest).trans (hf _ _ _ _ _)
    _ = f c.assigned := (congrArg f hnests.relinks.rest).trans (hf _ _ _ _ _)
    _ = f c.docs := (congrArg f c.collects_assigned.rest).trans (hf _ _ _ _ _)

theorem block?_grouped (id : BlockId) :
    c.grouped.docs.block? id = c.docs.block? id :=
  docs_grouped hgroups (f := fun d => d.block? id) fun _ _ _ _ _ => rfl

theorem attached_grouped : c.grouped.docs.attached = c.docs.attached :=
  docs_grouped hgroups (f := Docs.attached) fun _ _ _ _ _ => rfl

theorem blockOf?_grouped (item : ItemId) :
    c.grouped.docs.blockOf? item = c.docs.blockOf? item := by
  unfold Docs.blockOf?
  rw [attached_grouped hgroups]

theorem isRendered_grouped (item : ItemId) :
    c.grouped.isRendered item = c.isRendered item := by
  have hdeclarations : c.grouped.declarations = c.declarations := rfl
  have hvocabulary : c.grouped.vocabulary = c.vocabulary := rfl
  refine isRendered_congr hdeclarations hvocabulary ?_ item
  intro item
  unfold blockOf?
  rw [blockOf?_grouped hgroups, show c.grouped.docs.block? = c.docs.block? from
    funext (block?_grouped hgroups)]

theorem items_grouped {id : GroupId} {g : Group}
    (hbare : ∀ id g, c.docs.group? id = some g → g.items = [])
    (hg : c.grouped.docs.group? id = some g) :
    g.items.Nodup ∧ ∀ item, item ∈ g.items ↔
      ∃ block ∈ c.docs.listedBlocks, (c.docs.block? block).bind c.assignment? =
        some (id, item) := by
  obtain ⟨closers, hnests⟩ := exists_nests_assignGroups hgroups
  have hlinks : (c.grouped.docs.groupLinks? id).map GroupLinks.items = _ :=
    congrArg (Option.map GroupLinks.items)
      ((Docs.Agrees.pruneGroups c.assignGroups.docs).groups id)
  rw [Docs.groupLinks?_of_group? hg, Docs.groupLinks?, Option.map_map] at hlinks
  have hitems := hlinks.trans (hnests.relinks.map_eq (fun _ => rfl) id)
  obtain ⟨g', hg', heq⟩ := Option.map_eq_some_iff.1 hitems.symm
  have hname := c.collects_assigned.map_eq (f := (·.name)) (fun _ _ => rfl) id
  rw [hg'] at hname
  obtain ⟨before, hbefore, -⟩ := Option.map_eq_some_iff.1 hname.symm
  obtain ⟨items, hassigned, hnodup, hmem⟩ :=
    c.collects_assigned.group id before hbefore
  obtain rfl := Option.some.inj (hassigned.symm.trans hg')
  rw [hbare id before hbefore] at hnodup hmem
  have hsame : items = g.items := heq
  rw [← hsame]
  exact ⟨hnodup List.nodup_nil, fun item => by simpa using hmem item⟩

theorem exists_grouped {id : GroupId} (hid : id ∈ c.docs.listedGroups) :
    ∃ g, c.grouped.docs.group? id = some g ∧
    (g.items ≠ [] → id ∈ c.grouped.docs.listedGroups) := by
  obtain ⟨closers, hnests⟩ := exists_nests_assignGroups hgroups
  have hunpruned := hnests.unpruned (c.collects_assigned.unlinked hgroups)
  have hlisted : id ∈ c.assignGroups.docs.listedGroups := by
    rw [hnests.relinks.listedGroups, c.collects_assigned.listedGroups]
    exact hid
  obtain ⟨g, hg⟩ := Option.isSome_iff_exists.1 (hunpruned.exist id hlisted)
  refine ⟨c.assignGroups.docs.prunedGroup id g, ?_, fun hitems => ?_⟩
  · exact (hunpruned.group?_pruneGroups hlisted).trans (congrArg (Option.map _) hg)
  · exact hunpruned.mem_listedGroups_pruneGroups.2 ⟨hlisted, id, .refl,
      g, hg, hitems⟩

end

end Catalog

/-! ## All in all -/

namespace Run

/-- Groups are filled when the names in the queue have been looked up. -/
theorem exists_grouped_eq_finalize (settings : Settings)
    (vocabulary : Vocabulary) (language : Bytes) (sources : List SourceText) :
    ∃ c : Catalog,
      ((fresh settings vocabulary language).readAll sources).finalize.catalog =
        c.grouped ∧
      c.docs.Tidy ∧ c.Consistent := by
  let run := (fresh settings vocabulary language).readAll sources
  let marked := run.catalog.mapDocs fun d => { d with isFinal := true }
  have hsound : run.catalog.Sound :=
    (unfolds_readAll _ sources).sound (sound_fresh _ _ _)
  have hread : run.catalog.docs.Tidy :=
    tidy_readAll settings vocabulary language sources
  have hmarked : marked.Consistent :=
    Catalog.Step.consistent
      (.edit ⟨fun _ => rfl, fun _ => rfl, rfl, rfl, .refl _⟩
        (.of_blocks Block.Continues.refl rfl))
      (consistent_readAll _ _ _ sources)
  have htidy : marked.docs.Tidy :=
    ⟨hread.listed, hread.grouped, hread.replaced, hread.bare, hread.named,
      hread.queue⟩
  refine ⟨marked.resolve, ?_, Catalog.tidy_resolve htidy,
    (Catalog.reaches_resolve hmarked).consistent hmarked⟩
  change run.catalog.finalize = _
  unfold Catalog.finalize
  rw [hsound.docs.isFinal]
  rfl

/-- Every item is in at most one group and there at most once.  It is in a
group, which is then kept, exactly if the block that documents it is a normal
one that belongs to the group and the item is shown.  A block that an item had
only for a while belongs to no group. -/
theorem groups_contain_documented (settings : Settings)
    (vocabulary : Vocabulary) (language : Bytes) (sources : List SourceText) :
    let final :=
  ((fresh settings vocabulary language).readAll sources).finalize.catalog
    (∀ id g, final.docs.group? id = some g → g.items.Nodup) ∧
      (∀ id id' g g' item, final.docs.group? id = some g →
        final.docs.group? id' = some g' → item ∈ g.items →
        item ∈ g'.items → id = id') ∧
      (∀ id item,
        (id ∈ final.docs.listedGroups ∧ ∃ g, final.docs.group? id = some g ∧
          item ∈ g.items) ↔
          ∃ block b, final.docs.blockOf? item = some block ∧
            final.docs.block? block = some b ∧ b.kind = .normal ∧
            b.group = some id ∧ final.isRendered item = true) ∧
      ∀ block b, final.docs.IsReplaced block →
      final.docs.block? block = some b → b.group = none := by
  intro final
  obtain ⟨c, hfinal, htidy, hc⟩ :=
    exists_grouped_eq_finalize settings vocabulary language sources
  replace hfinal : final = c.grouped := hfinal
  rw [hfinal]
  have hgroups := htidy.unlinked hc.docs
  have hassigned {id : GroupId} {item : ItemId} :
      (∃ block ∈ c.docs.listedBlocks, (c.docs.block? block).bind c.assignment? =
        some (id, item)) ↔ _ :=
    Catalog.assigned_iff htidy hc.docs.attached
  have hitems {id : GroupId} {g : Group}
      (hg : c.grouped.docs.group? id = some g) :=
    Catalog.items_grouped hgroups (fun id g hg => (htidy.bare id g hg).1) hg
  refine ⟨fun id g hg => (hitems hg).1, ?_, ?_, ?_⟩
  · intro id id' g g' item hg hg' hmem hmem'
    obtain ⟨block, b, hitem, hb, -, hgroup, -⟩ :=
      hassigned.1 (((hitems hg).2 item).1 hmem)
    obtain ⟨block', b', hitem', hb', -, hgroup', -⟩ :=
      hassigned.1 (((hitems hg').2 item).1 hmem')
    obtain rfl := Option.some.inj (hitem.symm.trans hitem')
    obtain rfl := Option.some.inj (hb.symm.trans hb')
    exact Option.some.inj (hgroup.symm.trans hgroup')
  · intro id item
    simp only [Catalog.blockOf?_grouped hgroups, Catalog.block?_grouped hgroups,
      Catalog.isRendered_grouped hgroups]
    rw [← hassigned]
    constructor
    · rintro ⟨-, g, hg, hmem⟩
      exact ((hitems hg).2 item).1 hmem
    · intro hput
      obtain ⟨block, b, -, hb, -, hgroup, -⟩ := hassigned.1 hput
      have hlisted :=
        htidy.grouped block b.seat id (Docs.seat?_of_block? hb) hgroup
      obtain ⟨g, hg, hkept⟩ := Catalog.exists_grouped hgroups hlisted
      have hmem := ((hitems hg).2 item).2 hput
      exact ⟨hkept (List.ne_nil_of_mem hmem), g, hg, hmem⟩
  · intro block b hreplaced hb
    rw [Catalog.block?_grouped hgroups] at hb
    have hlinks : c.grouped.docs.links? block = c.docs.links? block :=
      congrArg (Option.map Block.links) (Catalog.block?_grouped hgroups block)
    have hbefore :=
      (Docs.isReplaced_congr hlinks (Catalog.attached_grouped hgroups)).1 hreplaced
    exact htidy.replaced block b.seat hbefore (Docs.seat?_of_block? hb)

/-- The first comment says nothing about the item that it names, and the second
one takes its place. -/
private def replacedSources : List SourceText :=
  [⟨utf8 "a.lua",
    utf8 "--! \\variable x\n\n--! text\n--! \\variable x\n--! \\ingroup g\n\n" ++
      utf8 "x = 1\n"⟩]

private def replacedFinal : Catalog :=
  ((fresh .default .default (utf8 "Lua")).readAll replacedSources).finalize.catalog

/-- Both blocks still refer to the item, which is in the group of the second
one. -/
theorem groups_contain_documented_sample :
    (replacedFinal.docs.blocks.map (·.item) = #[some 0, some 0, none] ∧
      replacedFinal.docs.blockOf? 0 = some 1 ∧ replacedFinal.isRendered 0 = true) ∧
    (0 ∈ replacedFinal.docs.listedGroups ∧
      ∃ g, replacedFinal.docs.group? 0 = some g ∧ 0 ∈ g.items ∧ g.items.Nodup) ∧
      (replacedFinal.docs.block? 0).bind (·.group) = none := by
  have hrun : replacedFinal.docs.blocks.map (·.item) = #[some 0, some 0, none] ∧
      replacedFinal.docs.blockOf? 0 = some 1 ∧
      replacedFinal.isRendered 0 = true := by
    decide +kernel
  have hblocks : (replacedFinal.docs.block? 0).map (fun b => (b.kind, b.item)) =
      some (.normal, some 0) ∧
      (replacedFinal.docs.block? 1).map (fun b => (b.kind, b.group)) =
        some (.normal, some 0) := by
    decide +kernel
  obtain ⟨b, hb, hseat⟩ := Option.map_eq_some_iff.1 hblocks.1
  obtain ⟨b', hb', hseat'⟩ := Option.map_eq_some_iff.1 hblocks.2
  obtain ⟨hkind, hitem⟩ := Prod.mk.inj hseat
  obtain ⟨hkind', hgroup'⟩ := Prod.mk.inj hseat'
  obtain ⟨hnodup, -, hmember, hreplaced⟩ :=
    groups_contain_documented .default .default (utf8 "Lua") replacedSources
  obtain ⟨hlisted, g, hg, hmem⟩ :=
    (hmember 0 0).2 ⟨1, b', hrun.2.1, hb', hkind', hgroup', hrun.2.2⟩
  refine ⟨hrun, ⟨hlisted, g, hg, hmem, hnodup 0 g hg⟩, ?_⟩
  have hnone :=
    hreplaced 0 b ⟨b, 0, hb, hkind, hitem, fun heq =>
      absurd (hrun.2.1.symm.trans heq) (by decide)⟩ hb
  rw [hb]
  exact hnone

end Run

end LuaGloss

import LuaGloss.Proofs.Docs.Pruning
import LuaGloss.Proofs.Source.Membership

/-!
# The groups of a run

When all sources have been read, items are put into groups, groups into each
other, and groups in which there is nothing are deleted.  Whatever the groups
ask for, they end as a forest of groups that contain something.
-/

namespace LuaGloss

open Relation

/-! ## Putting items into groups -/

namespace Catalog

def assignment? (c : Catalog) (b : Block) : Option (GroupId × ItemId) :=
  b.group.bind fun group => (b.item.filter c.isRendered).map fun item =>
    (group, item)

theorem assignment?_eq_some {c : Catalog} {b : Block} {group : GroupId}
    {item : ItemId} :
    c.assignment? b = some (group, item) ↔
      b.group = some group ∧ b.item = some item ∧ c.isRendered item = true := by
  simp [assignment?, Option.bind_eq_some_iff, Option.filter_eq_some_iff, and_assoc]

theorem assignBlock_eq (c : Catalog) (d : Docs) (id : BlockId) :
    c.assignBlock d id =
      match (d.block? id).bind c.assignment? with
      | some (group, item) => d.addGroupItem group item
      | none => d := by
  unfold assignBlock
  split
  next b hb =>
    rw [hb, Option.bind_some]
    unfold assignment?
    cases b.group with
    | none => rfl
    | some group =>
        cases b.item with
        | none => rfl
        | some item =>
            by_cases hrendered : c.isRendered item <;>
              simp [Option.filter, hrendered]
  next hb =>
    rw [hb]
    rfl

/-- From `d` to `d'` the items of some blocks are put into groups, each once. -/
structure Collects (c : Catalog) (blocks : List BlockId) (d d' : Docs) : Prop where
  rest : d' = { d with groups := d'.groups }
  size : d'.groups.size = d.groups.size
  group : ∀ id g, d.group? id = some g →
    ∃ items, d'.group? id = some { g with items } ∧
    (g.items.Nodup → items.Nodup) ∧
    ∀ item, item ∈ items ↔ item ∈ g.items ∨
    ∃ block ∈ blocks, (d.block? block).bind c.assignment? = some (id, item)

namespace Collects

variable {c : Catalog} {d d' d'' : Docs} {blocks : List BlockId}

section

variable (h : c.Collects blocks d d')

include h

theorem map_eq {α : Type} {f : Group → α}
    (hf : ∀ g items, f { g with items } = f g) (id : GroupId) :
    (d'.group? id).map f = (d.group? id).map f := by
  cases hg : d.group? id with
  | none =>
      have hnone : d'.group? id = none := by
        simpa [Docs.group?, h.size] using hg
      rw [hnone]
  | some g =>
      obtain ⟨items, hitems, -⟩ := h.group id g hg
      simp [hitems, hf]

theorem listedGroups : d'.listedGroups = d.listedGroups := by rw [h.rest]

theorem notices : d'.notices = d.notices := by rw [h.rest]

theorem warnings : d'.warnings = d.warnings := by rw [h.rest]

theorem block? (id : BlockId) : d'.block? id = d.block? id := by
  unfold Docs.block?
  rw [h.rest]

theorem request? (id : GroupId) : d'.request? id = d.request? id := by
  unfold Docs.request?
  rw [h.map_eq fun _ _ => rfl, show d'.block? = d.block? from funext h.block?]

end

theorem nil (c : Catalog) (d : Docs) : c.Collects [] d d :=
  ⟨rfl, rfl, fun id g hg => ⟨g.items, hg, fun h => h, by simp⟩⟩

theorem assignBlock (c : Catalog) (d : Docs) (block : BlockId) :
    c.Collects [block] d (c.assignBlock d block) := by
  rw [assignBlock_eq]
  split
  next group item hassigned =>
    refine ⟨rfl, Array.size_modify, ?_⟩
    intro id g hg
    unfold Docs.addGroupItem
    rw [Docs.group?_modifyGroup, hg]
    by_cases hid : group = id
    · subst hid
      by_cases hmem : item ∈ g.items
      · refine ⟨g.items, by simp [hmem], fun h => h, ?_⟩
        intro other
        have hold : item = other → other ∈ g.items := fun heq => heq ▸ hmem
        simpa [hassigned] using hold
      · refine ⟨g.items ++ [item], by simp [hmem], ?_, ?_⟩
        · intro hnodup
          refine List.nodup_append.2 ⟨hnodup, by simp, ?_⟩
          intro old hold new hnew heq
          rw [List.mem_singleton.1 hnew] at heq
          exact hmem (heq ▸ hold)
        · intro other
          simp [hassigned, eq_comm]
    · refine ⟨g.items, by simp [hid], fun h => h, ?_⟩
      intro other
      simp [hassigned, hid]
  next hnone =>
    refine ⟨rfl, rfl, ?_⟩
    intro id g hg
    refine ⟨g.items, hg, fun h => h, ?_⟩
    intro other
    simp [hnone]

theorem cons {block : BlockId} (h : c.Collects [block] d d')
    (h' : c.Collects blocks d' d'') : c.Collects (block :: blocks) d d'' := by
  have hblock := h.block?
  refine ⟨?_, h'.size.trans h.size, ?_⟩
  · have hrest := h'.rest
    rw [h.rest] at hrest
    exact hrest
  · intro id g hg
    obtain ⟨items, hitems, hnodup, hmem⟩ := h.group id g hg
    obtain ⟨items', hitems', hnodup', hmem'⟩ := h'.group id _ hitems
    refine ⟨items', hitems', fun h => hnodup' (hnodup h), ?_⟩
    intro item
    rw [hmem', hmem]
    simp [hblock, or_assoc]

theorem foldl (c : Catalog) (blocks : List BlockId) (d : Docs) :
    c.Collects blocks d (blocks.foldl c.assignBlock d) := by
  induction blocks generalizing d with
  | nil => exact .nil c d
  | cons block blocks ih => exact (assignBlock c d block).cons (ih _)

end Collects

end Catalog

/-! ## Groups before and after -/

namespace Docs

/-- The groups of the current run before anything is put into them.  They may
ask for any of them. -/
structure Unlinked (d : Docs) : Prop where
  bare : ∀ id ∈ d.listedGroups, ∃ g, d.group? id = some g ∧ g.groups = [] ∧
    g.parent = none ∧ g.isDeleted = false
  request : ∀ id ∈ d.listedGroups, ∀ parent, d.request? id = some parent →
    parent ∈ d.listedGroups
  nodup : d.listedGroups.Nodup
  named : d.DistinctNames

namespace Unlinked

variable {d : Docs} (hd : d.Unlinked)

include hd

theorem parent? {id : GroupId} (hid : id ∈ d.listedGroups) :
    d.parent? id = none := by
  obtain ⟨g, hg, -, hnone, -⟩ := hd.bare id hid
  simp [Docs.parent?, hg, hnone]

theorem nested : d.Nested where
  exist id hid := by
    obtain ⟨g, hg, -⟩ := hd.bare id hid
    simp [hg]
  lineage id hid := ⟨[id], .root (hd.parent? hid)⟩
  parent id hid parent hparent :=
    absurd ((hd.parent? hid).symm.trans hparent) nofun
  child id hid child hchild := by
    obtain ⟨g, hg, hnone, -⟩ := hd.bare id hid
    simp [subgroups, hg, hnone] at hchild

end Unlinked

end Docs

theorem Catalog.Collects.unlinked {c : Catalog} {d d' : Docs}
    {blocks : List BlockId} (h : c.Collects blocks d d') (hd : d.Unlinked) :
    d'.Unlinked := by
  have hlisted := h.listedGroups
  have hgroup {id : GroupId} {g' : Group} (hid : id ∈ d'.listedGroups)
      (hg' : d'.group? id = some g') :
      ∃ g, d.group? id = some g ∧ g.name = g'.name := by
    obtain ⟨g, hg, -⟩ := hd.bare id (hlisted ▸ hid)
    obtain ⟨items, hitems, -⟩ := h.group id g hg
    obtain rfl := Option.some.inj (hitems.symm.trans hg')
    exact ⟨g, hg, rfl⟩
  refine ⟨?_, ?_, hlisted ▸ hd.nodup, ?_⟩
  · intro id hid
    obtain ⟨g, hg, hbare⟩ := hd.bare id (hlisted ▸ hid)
    obtain ⟨items, hitems, -⟩ := h.group id g hg
    exact ⟨_, hitems, hbare⟩
  · intro id hid parent hparent
    rw [h.request?] at hparent
    rw [hlisted] at hid ⊢
    exact hd.request id hid parent hparent
  · intro id id' g₁ g₂ hid hid' hg₁ hg₂ hname
    obtain ⟨g, hg, hg₁'⟩ := hgroup hid hg₁
    obtain ⟨g', hg', hg₂'⟩ := hgroup hid' hg₂
    exact hd.named id id' g g' (hlisted ▸ hid) (hlisted ▸ hid') hg hg'
      (hg₁'.trans (hname.trans hg₂'.symm))

theorem Docs.Tidy.unlinked {d : Docs} (hd : d.Tidy) {n : Nat}
    (hlinked : d.Linked n) : d.Unlinked where
  bare id hid := by
    obtain ⟨links, hlinks⟩ :=
      Option.isSome_iff_exists.1 (hlinked.grouped.listed id hid)
    obtain ⟨g, hg, -⟩ := Option.map_eq_some_iff.1 hlinks
    exact ⟨g, hg, (hd.bare id g hg).2⟩
  request id hid parent hparent := by
    obtain ⟨block, -, hgroup⟩ := Option.bind_eq_some_iff.1 hparent
    obtain ⟨b, hb, hparent⟩ := Option.bind_eq_some_iff.1 hgroup
    exact hd.grouped block b.seat parent (Docs.seat?_of_block? hb) hparent
  nodup := hlinked.grouped.nodup
  named := hd.named

theorem Docs.findGroup?_eq_some {d : Docs} (hnamed : d.DistinctNames)
    {name : Bytes} {id : GroupId} :
    d.findGroup? name = some id ↔ id ∈ d.listedGroups ∧
    ∃ g, d.group? id = some g ∧ g.name = name := by
  have hfound {id : GroupId} (h : d.findGroup? name = some id) :
      id ∈ d.listedGroups ∧ ∃ g, d.group? id = some g ∧ g.name = name := by
    have hany := List.find?_some h
    obtain ⟨g, hg, hname⟩ := (Option.any_eq_true _ _).1 hany
    exact ⟨List.mem_of_find?_eq_some h, g, hg, by simpa using hname⟩
  constructor
  · exact hfound
  · rintro ⟨hid, g, hg, hname⟩
    have hsome : (d.findGroup? name).isSome := by
      unfold findGroup?
      rw [List.find?_isSome]
      exact ⟨id, hid, by simp [hg, hname]⟩
    obtain ⟨id', hid'⟩ := Option.isSome_iff_exists.1 hsome
    obtain ⟨hlisted', g', hg', hname'⟩ := hfound hid'
    rw [hid', hnamed id id' g g' hid hlisted' hg hg' (hname.trans hname'.symm)]

/-! ## Putting groups into each other -/

theorem Docs.Nests.unpruned {d d' : Docs} {ids closers : List GroupId}
    (h : d.Nests ids closers d') (hd : d.Unlinked) : d'.Unpruned := by
  refine ⟨h.nested, ?_, h.relinks.listedGroups ▸ hd.nodup⟩
  intro id hid g hg
  obtain ⟨g', hg', -, -, hfalse⟩ := hd.bare id (h.relinks.listedGroups ▸ hid)
  have hsame := h.relinks.map_eq (f := (·.isDeleted)) (fun _ => rfl) id
  rw [hg, hg'] at hsame
  exact (Option.some.inj hsame).trans hfalse

namespace Catalog

/-- The documentation when items have been put into groups. -/
def assigned (c : Catalog) : Docs := c.docs.listedBlocks.foldl c.assignBlock c.docs

theorem collects_assigned (c : Catalog) :
    c.Collects c.docs.listedBlocks c.docs c.assigned := .foldl c _ _

theorem exists_nests {c : Catalog} (hgroups : c.docs.Unlinked)
    {ids : List GroupId} (hids : ids.Sublist c.docs.listedGroups) :
    ∃ closers,
      c.assigned.Nests ids closers (ids.foldl Docs.linkGroup c.assigned) := by
  have hassigned := c.collects_assigned.unlinked hgroups
  refine hassigned.nested.exists_nests ids (hgroups.nodup.sublist hids) ?_
  intro id hid
  have hlisted : id ∈ c.assigned.listedGroups :=
    c.collects_assigned.listedGroups ▸ hids.subset hid
  exact ⟨hlisted, hassigned.parent? hlisted, hassigned.request id hlisted⟩

theorem isAncestor_linking {c : Catalog} (hgroups : c.docs.Unlinked)
    {ids : List GroupId} (hids : ids.Sublist c.docs.listedGroups) (id : GroupId)
    {other : GroupId} (hother : other ∈ c.docs.listedGroups) {steps : Nat}
    (hsteps : c.docs.groups.size ≤ steps) :
    (ids.foldl Docs.linkGroup c.assigned).isAncestor id steps other =
      (ids.foldl Docs.linkGroup c.assigned).isAncestor id
        c.docs.groups.size other := by
  obtain ⟨closers, hnests⟩ := exists_nests hgroups hids
  have hlisted : other ∈ (ids.foldl Docs.linkGroup c.assigned).listedGroups := by
    rw [hnests.relinks.listedGroups, c.collects_assigned.listedGroups]
    exact hother
  have hsize := hnests.relinks.size.trans c.collects_assigned.size
  rw [Bool.eq_iff_iff, hnests.nested.isAncestor_iff hlisted (hsize ▸ hsteps),
    hnests.nested.isAncestor_iff hlisted (Nat.le_of_eq hsize)]

theorem exists_nests_assignGroups {c : Catalog} (hgroups : c.docs.Unlinked) :
    ∃ closers, c.assigned.Nests c.docs.listedGroups closers
      c.assignGroups.docs := by
  have hdocs : c.assignGroups.docs =
      c.docs.listedGroups.foldl Docs.linkGroup c.assigned := by
    rw [← c.collects_assigned.listedGroups]
    rfl
  rw [hdocs]
  exact exists_nests hgroups (.refl _)

/-- The catalog when items and groups have been put into groups and empty groups
have been deleted. -/
def grouped (c : Catalog) : Catalog := c.assignGroups.mapDocs Docs.pruneGroups

theorem distinctNames_grouped {c : Catalog} (hgroups : c.docs.Unlinked) :
    c.grouped.docs.DistinctNames := by
  obtain ⟨closers, hnests⟩ := exists_nests_assignGroups hgroups
  have hunpruned := hnests.unpruned (c.collects_assigned.unlinked hgroups)
  have hold {id : GroupId} {g : Group} (hid : id ∈ c.grouped.docs.listedGroups)
      (hg : c.grouped.docs.group? id = some g) :
      id ∈ c.docs.listedGroups ∧ ∃ before, c.docs.group? id = some before ∧
      before.name = g.name := by
    have hlisted := (hunpruned.mem_listedGroups_pruneGroups.1 hid).1
    obtain ⟨linked, hlinked, rfl⟩ :=
      Option.map_eq_some_iff.1
        ((hunpruned.group?_pruneGroups hlisted).symm.trans hg)
    have hsame := (hnests.relinks.map_eq (f := (·.name)) (fun _ => rfl) id).trans
      (c.collects_assigned.map_eq (fun _ _ => rfl) id)
    rw [hlinked] at hsame
    rw [hnests.relinks.listedGroups, c.collects_assigned.listedGroups] at hlisted
    exact ⟨hlisted, Option.map_eq_some_iff.1 hsame.symm⟩
  intro id id' g g' hid hid' hg hg' hname
  obtain ⟨hlisted, before, hbefore, heq⟩ := hold hid hg
  obtain ⟨hlisted', before', hbefore', heq'⟩ := hold hid' hg'
  exact hgroups.named id id' before before' hlisted hlisted' hbefore hbefore'
    (heq.trans (hname.trans heq'.symm))

/-- Whatever the groups ask for, in the end they form a forest.  A group that is
kept lies in one that is kept and is listed there once, and no other groups are
listed there.  A group is kept exactly if there is an item in it or below it;
the order stays, and exactly the kept groups are found by their names.  A group
is not put where it asks to lie exactly if this would close a cycle with the
links made before, and then one warning is given.  No bound on the ways up and
on the depth of the forest makes a difference. -/
theorem groups_form_forest (c : Catalog) (hgroups : c.docs.Unlinked) :
    let listed := c.docs.listedGroups
    let linked := c.assignGroups.docs
    let final := linked.pruneGroups
    (∀ id, ¬ TransGen final.LiesIn id id) ∧
      (∀ id ∈ final.listedGroups, ∀ parent, final.parent? id = some parent →
        parent ∈ final.listedGroups ∧ (final.subgroups parent).count id = 1) ∧
      (∀ id ∈ final.listedGroups, ∀ child ∈ final.subgroups id,
        child ∈ final.listedGroups ∧ final.parent? child = some id) ∧
      (∀ id, id ∈ final.listedGroups ↔ id ∈ listed ∧ linked.IsFilled id) ∧
      final.listedGroups.Sublist listed ∧
      (∀ name id, final.findGroup? name = some id ↔
        id ∈ final.listedGroups ∧ ∃ g, final.group? id = some g ∧ g.name = name) ∧
      (∃ closers : List GroupId, closers.Sublist listed ∧
        (∀ before id after, listed = before ++ id :: after →
          (id ∈ closers ↔
            (before.foldl Docs.linkGroup c.assigned).ClosesCycle id)) ∧
        (∀ id ∈ listed, linked.parent? id = if id ∈ closers then none else
          c.docs.request? id) ∧
        linked.notices.toList = c.docs.notices.toList ++
          closers.filterMap c.docs.cycleNotice? ∧
        final.warnings = c.docs.warnings + closers.length) ∧
      (∀ before after, listed = before ++ after →
        ∀ id, ∀ other ∈ listed, ∀ steps, c.docs.groups.size ≤ steps →
        (before.foldl Docs.linkGroup c.assigned).isAncestor id steps other =
          (before.foldl Docs.linkGroup c.assigned).isAncestor id
            c.docs.groups.size other) ∧
      ∀ depth, c.docs.groups.size < depth →
        linked.roots.foldl (Docs.pruneGroup depth) linked =
          linked.roots.foldl
            (Docs.pruneGroup (c.docs.groups.size + 1)) linked := by
  intro listed linked final
  have hcollects := c.collects_assigned
  have hassigned := hcollects.unlinked hgroups
  obtain ⟨closers, hnests⟩ := exists_nests_assignGroups hgroups
  have hunpruned := hnests.unpruned hassigned
  have hfinal := hunpruned.pruneGroups
  have hlisted : linked.listedGroups = listed :=
    hnests.relinks.listedGroups.trans hcollects.listedGroups
  have hsize : linked.groups.size = c.docs.groups.size :=
    hnests.relinks.size.trans hcollects.size
  refine ⟨fun id => hfinal.acyclic, hfinal.parent, hfinal.child, ?_, ?_,
    ?_, ?_, ?_, ?_⟩
  · intro id
    rw [← hlisted]
    exact hunpruned.mem_listedGroups_pruneGroups
  · rw [← hlisted]
    exact (Docs.Agrees.pruneGroups linked).listedGroups
  · intro name id
    exact Docs.findGroup?_eq_some (distinctNames_grouped hgroups)
  · refine ⟨closers, hnests.sublist, hnests.closes, ?_, ?_, ?_⟩
    · intro id hid
      rw [hnests.parent?, hcollects.request?,
        hassigned.parent? (hcollects.listedGroups ▸ hid)]
      by_cases hcloser : id ∈ closers <;>
        simp [hcloser, show id ∈ c.docs.listedGroups from hid]
    · have hnotice :=
        Docs.cycleNotice?_congr hcollects.block? (hcollects.map_eq fun _ _ => rfl)
      rw [hnests.notices, hcollects.notices, funext hnotice]
    · exact hunpruned.warnings_pruneGroups.trans
        (hcollects.warnings ▸ hnests.warnings)
  · intro before after hsplit id other hother steps hsteps
    have hbefore : before.Sublist listed := hsplit ▸ List.sublist_append_left _ _
    exact isAncestor_linking hgroups hbefore id hother hsteps
  · intro depth hdepth
    obtain ⟨more, rfl⟩ := Nat.exists_eq_add_of_le (Nat.succ_le_of_lt hdepth)
    rw [← hsize]
    exact hunpruned.prune_roots.2 more

end Catalog

theorem Run.unlinked_readAll (settings : Settings) (vocabulary : Vocabulary)
    (language : Bytes) (sources : List SourceText) :
    ((fresh settings vocabulary language).readAll sources).catalog.docs.Unlinked :=
  (tidy_readAll settings vocabulary language sources).unlinked
    (consistent_readAll settings vocabulary language sources).docs

/-- Two groups ask to lie in each other, and a third one in the first. -/
private def mutualSources : List SourceText :=
  [⟨utf8 "a.lua",
    utf8 "--! \\group a\n--! \\ingroup b\n\n--! \\group b\n--! \\ingroup a\n"⟩,
    ⟨utf8 "b.lua",
      utf8 "--! \\group c\n--! \\ingroup a\n\n--! \\ingroup a\nx = 1\n"⟩]

private def mutualRun : Run :=
  (Run.fresh .default .default (utf8 "Lua")).readAll mutualSources

/-- The second group cannot be put into the first one, and the third one is
deleted. -/
theorem Catalog.groups_form_forest_sample :
    (mutualRun.catalog.docs.Unlinked ∧
      mutualRun.catalog.docs.listedGroups = [0, 1, 2] ∧
      mutualRun.catalog.docs.listedGroups.map mutualRun.catalog.docs.request? =
        [some 1, some 0, some 0] ∧
      mutualRun.catalog.assignGroups.docs.pruneGroups.listedGroups = [0, 1]) ∧
    mutualRun.catalog.assignGroups.docs.IsFilled 1 ∧
      ¬ mutualRun.catalog.assignGroups.docs.IsFilled 2 ∧
      (mutualRun.catalog.assigned.linkGroup 0).ClosesCycle 1 := by
  have hunlinked : mutualRun.catalog.docs.Unlinked := Run.unlinked_readAll _ _ _ _
  have hrun : mutualRun.catalog.docs.listedGroups = [0, 1, 2] ∧
      mutualRun.catalog.docs.listedGroups.map mutualRun.catalog.docs.request? =
        [some 1, some 0, some 0] ∧
      mutualRun.catalog.assignGroups.docs.pruneGroups.listedGroups = [0, 1] := by
    decide +kernel
  obtain ⟨-, -, -, hkept, -, -, ⟨closers, -, hcloses, hparent, -⟩, -⟩ :=
    groups_form_forest mutualRun.catalog hunlinked
  rw [hrun.1] at hkept hcloses hparent
  rw [hrun.2.2] at hkept
  refine ⟨⟨hunlinked, hrun⟩, ((hkept 1).1 (by decide)).2, fun hfilled => ?_, ?_⟩
  · exact absurd ((hkept 2).2 ⟨by decide, hfilled⟩) (by decide)
  · have hroot : mutualRun.catalog.assignGroups.docs.parent? 1 = none ∧
        mutualRun.catalog.docs.request? 1 = some 0 := by
      decide +kernel
    apply (hcloses [0] 1 [2] rfl).1
    by_contra hnot
    have hasked := hparent 1 (by decide)
    rw [if_neg hnot, hroot.1, hroot.2] at hasked
    cases hasked

end LuaGloss

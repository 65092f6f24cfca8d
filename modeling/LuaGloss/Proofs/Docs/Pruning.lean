import LuaGloss.Proofs.Docs.Forest
import Mathlib.Data.List.Nodup
import Mathlib.Data.Set.Lattice
import Mathlib.Order.CompletePartialOrder

/-!
# Groups in which there is nothing are deleted

Groups are pruned from the roots of the forest downwards, in place.  When a
group has been pruned, everything below it has been, and nothing else has
changed.  What remains of a group can be said in terms of the forest before the
pruning: a group is deleted if there is no item in it and in the groups below
it, and it loses the children that are deleted.
-/

namespace LuaGloss

namespace Docs

open Relation

/-- The groups that lie in a group, directly or not, and the group itself. -/
def below (d : Docs) (id : GroupId) : Set GroupId :=
  { other | ReflTransGen d.LiesIn other id }

/-- Whether there is an item in a group or below it. -/
def IsFilled (d : Docs) (id : GroupId) : Prop :=
  ∃ other ∈ d.below id, ∃ g, d.group? other = some g ∧ g.items ≠ []

theorem IsFilled.parent {d : Docs} {id parent : GroupId} (h : d.IsFilled id)
    (hlies : d.LiesIn id parent) : d.IsFilled parent := by
  obtain ⟨other, hother, hitems⟩ := h
  exact ⟨other, hother.tail hlies, hitems⟩

namespace Nested

variable {d : Docs} (hd : d.Nested) {id : GroupId} {g : Group}

include hd

theorem liesIn_iff (hid : id ∈ d.listedGroups) (hg : d.group? id = some g)
    {child : GroupId} : d.LiesIn child id ↔ child ∈ g.groups := by
  have hsubgroups : d.subgroups id = g.groups := by simp [subgroups, hg]
  rw [← hsubgroups]
  constructor
  · intro hlies
    have hcount := (hd.parent child hlies.1 id hlies.2).2
    exact List.count_pos_iff.1 (by omega)
  · exact hd.child id hid child

theorem mem_below (hid : id ∈ d.listedGroups) (hg : d.group? id = some g)
    {other : GroupId} :
    other ∈ d.below id ↔ other = id ∨
    ∃ child ∈ g.groups, other ∈ d.below child := by
  constructor
  · intro hother
    rcases hother.cases_tail with heq | ⟨child, hchild, hlies⟩
    · exact .inl heq.symm
    · exact .inr ⟨child, (hd.liesIn_iff hid hg).1 hlies, hchild⟩
  · rintro (rfl | ⟨child, hchild, hother⟩)
    · exact .refl
    · exact hother.tail ((hd.liesIn_iff hid hg).2 hchild)

theorem isFilled_iff (hid : id ∈ d.listedGroups) (hg : d.group? id = some g) :
    d.IsFilled id ↔ g.items ≠ [] ∨ ∃ child ∈ g.groups, d.IsFilled child := by
  unfold IsFilled
  constructor
  · rintro ⟨other, hother, g', hg', hitems⟩
    rcases (hd.mem_below hid hg).1 hother with rfl | ⟨child, hchild, hother⟩
    · obtain rfl := Option.some.inj (hg.symm.trans hg')
      exact .inl hitems
    · exact .inr ⟨child, hchild, other, hother, g', hg', hitems⟩
  · rintro (hitems | ⟨child, hchild, other, hother, hrest⟩)
    · exact ⟨id, .refl, g, hg, hitems⟩
    · exact ⟨other, (hd.mem_below hid hg).2 (.inr ⟨child, hchild, hother⟩), hrest⟩

theorem nodup_groups (hid : id ∈ d.listedGroups) (hg : d.group? id = some g) :
    g.groups.Nodup := by
  have hsubgroups : d.subgroups id = g.groups := by simp [subgroups, hg]
  rw [List.nodup_iff_count_eq_one]
  intro child hchild
  have hlies := (hd.liesIn_iff hid hg).2 hchild
  exact hsubgroups ▸ (hd.parent child hlies.1 id hlies.2).2

theorem pairwise_disjoint {ids : List GroupId} (hnodup : ids.Nodup)
    {up : Option GroupId} (hids : ∀ id ∈ ids, d.parent? id = up) :
    ids.Pairwise fun id id' => Disjoint (d.below id) (d.below id') := by
  refine hnodup.imp_of_mem ?_
  intro id id' hid hid' hne
  rw [Set.disjoint_left]
  exact fun other hother =>
    hd.apart hne ((hids id hid).trans (hids id' hid').symm) hother

end Nested

/-! ## Pruning -/

/-- A forest in which nothing has been deleted. -/
structure Unpruned (d : Docs) : Prop extends Nested d where
  fresh : ∀ id ∈ d.listedGroups, ∀ g, d.group? id = some g → g.isDeleted = false
  nodup : d.listedGroups.Nodup

open Classical in
noncomputable def prunedGroup (d : Docs) (id : GroupId) (g : Group) : Group :=
  { g with
    groups := g.groups.filter fun child => d.IsFilled child
    isDeleted := g.isDeleted || decide (¬ d.IsFilled id) }

/-- Some groups of `d` have been pruned, which gives `d'`. -/
structure Pruned (d : Docs) (done : Set GroupId) (d' : Docs) : Prop where
  rest : d' = { d with groups := d'.groups, notices := d'.notices }
  pruned : ∀ id ∈ done, d'.group? id = (d.group? id).map (d.prunedGroup id)
  other : ∀ id, id ∉ done → d'.group? id = d.group? id

/-- Pruning a group prunes everything below it as well, and would do the same if
it could go deeper. -/
def Prunes (d : Docs) (depth : Nat) (id : GroupId) : Prop :=
  ∀ done d', d.Pruned done d' → Disjoint done (d.below id) →
    d.Pruned (done ∪ d.below id) (pruneGroup depth d' id) ∧
      ∀ more, pruneGroup (depth + more) d' id = pruneGroup depth d' id

theorem prunes_all {d : Docs} {depth : Nat} {ids : List GroupId}
    (hids : ∀ id ∈ ids, d.Prunes depth id)
    (hapart : ids.Pairwise fun id id' => Disjoint (d.below id) (d.below id'))
    {done : Set GroupId} {d' : Docs} (h : d.Pruned done d')
    (hdone : ∀ id ∈ ids, Disjoint done (d.below id)) :
    d.Pruned (done ∪ { other | ∃ id ∈ ids, other ∈ d.below id })
      (ids.foldl (pruneGroup depth) d') ∧
      ∀ more, ids.foldl (pruneGroup (depth + more)) d' =
        ids.foldl (pruneGroup depth) d' := by
  induction ids generalizing done d' with
  | nil => simpa using h
  | cons id ids ih =>
      obtain ⟨hfirst, hrest⟩ := List.forall_mem_cons.1 hids
      obtain ⟨hid, hothers⟩ := List.pairwise_cons.1 hapart
      obtain ⟨hdone', hdoneRest⟩ := List.forall_mem_cons.1 hdone
      obtain ⟨hpruned, hmore⟩ := hfirst done d' h hdone'
      obtain ⟨hall, hallMore⟩ := ih hrest hothers hpruned fun other hother =>
        Disjoint.sup_left (hdoneRest other hother) (hid other hother)
      constructor
      · have hset : done ∪ { other | ∃ id' ∈ id :: ids, other ∈ d.below id' } =
            done ∪ d.below id ∪ { other | ∃ id' ∈ ids, other ∈ d.below id' } := by
          ext other
          simp [or_assoc]
        rw [hset]
        exact hall
      · intro more
        rw [List.foldl_cons, List.foldl_cons, hmore, hallMore]

def dropEmpty (d : Docs) (id : GroupId) (g : Group) : Docs :=
  let kept := g.groups.filter fun child => !(d.group? child).any (·.isDeleted)
  let d := d.modifyGroup id fun g => { g with groups := kept }
  if g.items.isEmpty && kept.isEmpty then
    (d.note (.deletedGroup g.name)).modifyGroup id fun g =>
      { g with isDeleted := true }
  else d

theorem pruneGroup_succ {d : Docs} {id : GroupId} {g : Group}
    (hg : d.group? id = some g) (depth : Nat) :
    pruneGroup (depth + 1) d id =
      (g.groups.foldl (pruneGroup depth) d).dropEmpty id g := by
  rw [pruneGroup, hg]
  rfl

theorem Pruned.insert {d d' d'' : Docs} {done : Set GroupId}
    (h : d.Pruned done d') {id : GroupId} {g : Group}
    (hg : d.group? id = some g)
    (hrest : d'' = { d' with groups := d''.groups, notices := d''.notices })
    (hgroup : d''.group? id = some (d.prunedGroup id g))
    (hother : ∀ other, other ≠ id → d''.group? other = d'.group? other) :
    d.Pruned (Insert.insert id done) d'' := by
  refine ⟨?_, ?_, ?_⟩
  · rw [h.rest] at hrest
    exact hrest
  · intro other hmem
    by_cases heq : other = id
    · rw [heq, hgroup, hg]
      rfl
    · rw [hother other heq]
      exact h.pruned other (Set.mem_of_mem_insert_of_ne hmem heq)
  · intro other hmem
    obtain ⟨hne, hnot⟩ := not_or.1 hmem
    rw [hother other hne]
    exact h.other other hnot

theorem Pruned.dropEmpty {d d' : Docs} {done : Set GroupId}
    (h : d.Pruned done d') (hd : d.Unpruned) {id : GroupId} {g : Group}
    (hid : id ∈ d.listedGroups) (hg : d.group? id = some g) (hnew : id ∉ done)
    (hchildren : ∀ child ∈ g.groups, child ∈ done) :
    d.Pruned (Insert.insert id done) (d'.dropEmpty id g) := by
  classical
  have hkept :
      (g.groups.filter fun child => !(d'.group? child).any (·.isDeleted)) =
      g.groups.filter fun child => decide (d.IsFilled child) := by
    apply List.filter_congr
    intro child hchild
    have hlisted := ((hd.liesIn_iff hid hg).2 hchild).1
    obtain ⟨g', hg'⟩ := Option.isSome_iff_exists.1 (hd.exist child hlisted)
    rw [h.pruned child (hchildren child hchild), hg']
    simp [prunedGroup, hd.fresh child hlisted g' hg']
  have hempty :
      (g.items.isEmpty &&
        (g.groups.filter fun child => decide (d.IsFilled child)).isEmpty) = true ↔
      ¬ d.IsFilled id := by
    rw [hd.isFilled_iff hid hg]
    simp
  have hold : d'.group? id = some g := (h.other id hnew).trans hg
  unfold Docs.dropEmpty
  dsimp only
  rw [hkept]
  split
  next hnone =>
    refine h.insert hg rfl ?_ ?_
    · rw [group?_modifyGroup, if_pos rfl]
      change Option.map _ ((d'.modifyGroup id _).group? id) = _
      rw [group?_modifyGroup, if_pos rfl, hold]
      simp [prunedGroup, hempty.1 hnone]
    · intro other hne
      rw [group?_modifyGroup, if_neg (Ne.symm hne)]
      change (d'.modifyGroup id _).group? other = _
      rw [group?_modifyGroup, if_neg (Ne.symm hne)]
  next hsome =>
    refine h.insert hg rfl ?_ ?_
    · rw [group?_modifyGroup, if_pos rfl, hold]
      simp [prunedGroup, not_not.1 (mt hempty.2 hsome)]
    · intro other hne
      rw [group?_modifyGroup, if_neg (Ne.symm hne)]

theorem Unpruned.prunes {d : Docs} (hd : d.Unpruned) (depth : Nat)
    {id : GroupId} {line : List GroupId} (hid : id ∈ d.listedGroups)
    (hline : d.Lineage id line) (hdepth : d.groups.size < line.length + depth) :
    d.Prunes depth id := by
  induction depth generalizing id line with
  | zero => exact absurd (hd.length_le hid hline) (Nat.not_le_of_lt hdepth)
  | succ depth ih =>
      obtain ⟨g, hg⟩ := Option.isSome_iff_exists.1 (hd.exist id hid)
      have hchildren (child : GroupId) (hchild : child ∈ g.groups) :
          d.Prunes depth child := by
        have hlies := (hd.liesIn_iff hid hg).2 hchild
        exact ih hlies.1 (.child hlies.2 hline) (by rw [List.length_cons]; omega)
      have hapart := hd.pairwise_disjoint (hd.nodup_groups hid hg)
        fun child hchild => ((hd.liesIn_iff hid hg).2 hchild).2
      have hbelow (child : GroupId) (hchild : child ∈ g.groups) :
          d.below child ⊆ d.below id :=
        fun other hother => (hd.mem_below hid hg).2 (.inr ⟨child, hchild, hother⟩)
      intro done d' h hdone
      have hnew : id ∉ done := fun hmem => Set.disjoint_left.1 hdone hmem .refl
      obtain ⟨hpruned, hmore⟩ := prunes_all hchildren hapart h fun child hchild =>
        hdone.mono_right (hbelow child hchild)
      have hold : d'.group? id = some g := (h.other id hnew).trans hg
      constructor
      · have hset : done ∪ d.below id =
            Insert.insert id
              (done ∪ { other | ∃ child ∈ g.groups, other ∈ d.below child }) := by
          ext other
          simp only [Set.mem_union, Set.mem_insert_iff, hd.mem_below hid hg]
          exact or_left_comm
        rw [pruneGroup_succ hold, hset]
        refine hpruned.dropEmpty hd hid hg ?_ fun child hchild =>
          .inr ⟨child, hchild, .refl⟩
        rintro (hmem | ⟨child, hchild, hcycle⟩)
        · exact hnew hmem
        · exact hd.acyclic (.head' ((hd.liesIn_iff hid hg).2 hchild) hcycle)
      · intro more
        rw [Nat.add_right_comm, pruneGroup_succ hold, pruneGroup_succ hold, hmore]

/-! ## The whole forest -/

/-- The listed groups that lie in no other. -/
def roots (d : Docs) : List GroupId :=
  d.listedGroups.filter fun id => (d.group? id).any (·.parent.isNone)

theorem parent?_of_mem_roots {d : Docs} {id : GroupId} (h : id ∈ d.roots) :
    id ∈ d.listedGroups ∧ d.parent? id = none := by
  obtain ⟨hlisted, hroot⟩ := List.mem_filter.1 h
  obtain ⟨g, hg, hnone⟩ := (Option.any_eq_true _ _).1 hroot
  exact ⟨hlisted, by simpa [parent?, hg] using hnone⟩

theorem Nested.exists_root {d : Docs} (hd : d.Nested) {id : GroupId}
    (hid : id ∈ d.listedGroups) : ∃ root ∈ d.roots, id ∈ d.below root := by
  obtain ⟨line, hline⟩ := hd.lineage id hid
  induction hline with
  | root hnone =>
      obtain ⟨g, hg⟩ := Option.isSome_iff_exists.1 (hd.exist _ hid)
      refine ⟨_, List.mem_filter.2 ⟨hid, ?_⟩, .refl⟩
      simpa [parent?, hg] using hnone
  | child hsome _ ih =>
      obtain ⟨root, hroot, hbelow⟩ := ih (hd.parent _ hid _ hsome).1
      exact ⟨root, hroot, .head ⟨hid, hsome⟩ hbelow⟩

namespace Unpruned

variable {d : Docs} (hd : d.Unpruned) {id : GroupId}

include hd

/-- Pruning the roots prunes all groups, and it does not matter how deep it
could go. -/
theorem prune_roots :
    d.Pruned { other | ∃ root ∈ d.roots, other ∈ d.below root }
      (d.roots.foldl (pruneGroup (d.groups.size + 1)) d) ∧
      ∀ more, d.roots.foldl (pruneGroup (d.groups.size + 1 + more)) d =
        d.roots.foldl (pruneGroup (d.groups.size + 1)) d := by
  have hroots (root : GroupId) (hroot : root ∈ d.roots) :
      d.Prunes (d.groups.size + 1) root := by
    obtain ⟨hlisted, hnone⟩ := parent?_of_mem_roots hroot
    exact hd.prunes _ hlisted (.root hnone) (by rw [List.length_singleton]; omega)
  have hapart := hd.pairwise_disjoint (hd.nodup.filter _) fun root hroot =>
    (parent?_of_mem_roots hroot).2
  have hstart : d.Pruned ∅ d := ⟨rfl, nofun, fun _ _ => rfl⟩
  obtain ⟨hpruned, hmore⟩ :=
    prunes_all hroots hapart hstart fun root _ => Set.empty_disjoint _
  rw [Set.empty_union] at hpruned
  exact ⟨hpruned, hmore⟩

theorem group?_pruneGroups (hid : id ∈ d.listedGroups) :
    d.pruneGroups.group? id = (d.group? id).map (d.prunedGroup id) :=
  hd.prune_roots.1.pruned id (hd.exists_root hid)

theorem mem_listedGroups_pruneGroups :
    id ∈ d.pruneGroups.listedGroups ↔ id ∈ d.listedGroups ∧ d.IsFilled id := by
  have hpruned := hd.prune_roots.1
  have hmem : id ∈ d.pruneGroups.listedGroups ↔
      id ∈ (d.roots.foldl (pruneGroup (d.groups.size + 1)) d).listedGroups ∧
        (!((d.roots.foldl (pruneGroup (d.groups.size + 1)) d).group? id).any
          (·.isDeleted)) = true := List.mem_filter
  have hlisted :
      (d.roots.foldl (pruneGroup (d.groups.size + 1)) d).listedGroups =
        d.listedGroups := by
    rw [hpruned.rest]
  rw [hmem, hlisted]
  refine and_congr_right fun hid => ?_
  obtain ⟨g, hg⟩ := Option.isSome_iff_exists.1 (hd.exist id hid)
  rw [hpruned.pruned id (hd.exists_root hid), hg]
  simp [prunedGroup, hd.fresh id hid g hg]

theorem parent?_pruneGroups (hid : id ∈ d.listedGroups) :
    d.pruneGroups.parent? id = d.parent? id := by
  unfold parent?
  rw [hd.group?_pruneGroups hid, Option.bind_map]
  rfl

theorem warnings_pruneGroups : d.pruneGroups.warnings = d.warnings := by
  change (d.roots.foldl (pruneGroup (d.groups.size + 1)) d).warnings = d.warnings
  rw [hd.prune_roots.1.rest]

/-- What remains is a forest of the groups that are kept. -/
theorem pruneGroups : d.pruneGroups.Nested := by
  classical
  have hkept {id : GroupId} : id ∈ d.pruneGroups.listedGroups ↔ _ :=
    hd.mem_listedGroups_pruneGroups
  have hparent {id : GroupId} : id ∈ d.listedGroups → _ := hd.parent?_pruneGroups
  have hsubgroups {id : GroupId} (hid : id ∈ d.listedGroups) :
      d.pruneGroups.subgroups id = (d.subgroups id).filter fun child =>
        d.IsFilled child := by
    obtain ⟨g, hg⟩ := Option.isSome_iff_exists.1 (hd.exist id hid)
    simp [subgroups, hd.group?_pruneGroups hid, hg, prunedGroup]
  refine ⟨?_, ?_, ?_, ?_⟩
  · intro id hid
    rw [hd.group?_pruneGroups (hkept.1 hid).1, Option.isSome_map]
    exact hd.exist id (hkept.1 hid).1
  · intro id hid
    obtain ⟨line, hline⟩ := hd.lineage id (hkept.1 hid).1
    exact ⟨line, hline.of_eq fun other hother =>
      hparent (hd.listed_of_mem (hkept.1 hid).1 hline hother)⟩
  · intro id hid parent hlies
    obtain ⟨hlisted, hfilled⟩ := hkept.1 hid
    rw [hparent hlisted] at hlies
    obtain ⟨hlisted', hcount⟩ := hd.parent id hlisted parent hlies
    refine ⟨hkept.2 ⟨hlisted', hfilled.parent ⟨hlisted, hlies⟩⟩, ?_⟩
    rw [hsubgroups hlisted', List.count_filter (by simpa using hfilled), hcount]
  · intro id hid child hchild
    rw [hsubgroups (hkept.1 hid).1, List.mem_filter] at hchild
    obtain ⟨hlisted, hlies⟩ := hd.child id (hkept.1 hid).1 child hchild.1
    exact ⟨hkept.2 ⟨hlisted, by simpa using hchild.2⟩,
      (hparent hlisted).trans hlies⟩

end Unpruned

end Docs

end LuaGloss

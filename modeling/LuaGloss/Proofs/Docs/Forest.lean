import LuaGloss.Proofs.Docs.Links
import Mathlib.Data.List.Perm.Subperm
import Mathlib.Logic.Relation

/-!
# Groups lie in each other as a forest

A group asks for the group in which it wants to lie.  What all groups ask for
may contain cycles of any length.  The groups are asked one after the other, and
a group that would come to lie in itself is left where it is, so that the way up
from every group ends.  It ends after at most as many groups as there are.
-/

namespace LuaGloss

namespace Docs

open Relation

/-- The group in which a group lies. -/
def parent? (d : Docs) (id : GroupId) : Option GroupId :=
  (d.group? id).bind (·.parent)

def subgroups (d : Docs) (id : GroupId) : List GroupId :=
  ((d.group? id).map (·.groups)).getD []

/-- The group in which a group asks to lie, which is the one that its block
belongs to. -/
def request? (d : Docs) (id : GroupId) : Option GroupId :=
  ((d.group? id).map (·.block)).bind fun block => (d.block? block).bind (·.group)

/-- Whether a group of the current run lies in another. -/
def LiesIn (d : Docs) (child parent : GroupId) : Prop :=
  child ∈ d.listedGroups ∧ d.parent? child = some parent

theorem LiesIn.rightUnique (d : Docs) : Relator.RightUnique d.LiesIn := by
  intro child parent parent' h h'
  exact Option.some.inj (h.2.symm.trans h'.2)

/-! ## The way up -/

/-- The way up from a group: the group itself, the one in which it lies, and so
on. -/
inductive Lineage (d : Docs) : GroupId → List GroupId → Prop
  | root {id : GroupId} : d.parent? id = none → Lineage d id [id]
  | child {id parent : GroupId} {line : List GroupId} :
      d.parent? id = some parent → Lineage d parent line →
      Lineage d id (id :: line)

namespace Lineage

variable {d : Docs} {id : GroupId} {line : List GroupId}

theorem unique (h : d.Lineage id line) {line' : List GroupId}
    (h' : d.Lineage id line') : line = line' := by
  induction h generalizing line' with
  | root hnone =>
      cases h' with
      | root _ => rfl
      | child hsome _ => exact absurd (hnone.symm.trans hsome) nofun
  | child hsome _ ih =>
      cases h' with
      | root hnone => exact absurd (hnone.symm.trans hsome) nofun
      | child hsome' hline' =>
          obtain rfl := Option.some.inj (hsome.symm.trans hsome')
          rw [ih hline']

theorem of_mem (h : d.Lineage id line) {other : GroupId} (hother : other ∈ line) :
    ∃ line', d.Lineage other line' ∧ line' <:+ line := by
  induction h with
  | root hnone =>
      obtain rfl := List.mem_singleton.1 hother
      exact ⟨_, .root hnone, List.suffix_rfl⟩
  | @child id parent line hsome hline ih =>
      rcases List.mem_cons.1 hother with rfl | hrest
      · exact ⟨_, .child hsome hline, List.suffix_rfl⟩
      · obtain ⟨line', hline', hsuffix⟩ := ih hrest
        exact ⟨line', hline', hsuffix.trans (List.suffix_cons _ _)⟩

theorem nodup (h : d.Lineage id line) : line.Nodup := by
  induction h with
  | root _ => simp
  | @child id parent line hsome hline ih =>
      refine List.nodup_cons.2 ⟨?_, ih⟩
      intro hmem
      obtain ⟨line', hline', hsuffix⟩ := hline.of_mem hmem
      have hlength := hsuffix.length_le
      rw [hline'.unique (.child hsome hline), List.length_cons] at hlength
      exact Nat.lt_irrefl _ hlength

theorem of_eq {d' : Docs} (h : d.Lineage id line)
    (hsame : ∀ other ∈ line, d'.parent? other = d.parent? other) :
    d'.Lineage id line := by
  induction h with
  | root hnone => exact .root ((hsame _ List.mem_cons_self).trans hnone)
  | child hsome _ ih =>
      refine .child ((hsame _ List.mem_cons_self).trans hsome) (ih ?_)
      exact fun other hother => hsame other (List.mem_cons_of_mem _ hother)

/-- Going up a number of steps comes by as many groups of the way up. -/
theorem isAncestor_eq (h : d.Lineage id line) (group : GroupId) (steps : Nat) :
    d.isAncestor group steps id = (line.take steps).contains group := by
  induction h generalizing steps with
  | @root id hnone =>
      cases steps with
      | zero => rfl
      | succ steps =>
          unfold isAncestor
          change (id == group || (d.parent? id).any _) = _
          rw [hnone, List.take_succ_cons, List.contains_cons, Bool.beq_comm]
          simp
  | @child id parent line hsome hline ih =>
      cases steps with
      | zero => rfl
      | succ steps =>
          unfold isAncestor
          change (id == group || (d.parent? id).any _) = _
          rw [hsome, List.take_succ_cons, List.contains_cons, Option.any_some,
            ih, Bool.beq_comm]

end Lineage

/-! ## Forests -/

/-- The listed groups form a forest, in which children and parents know each
other. -/
structure Nested (d : Docs) : Prop where
  exist : ∀ id ∈ d.listedGroups, (d.group? id).isSome
  lineage : ∀ id ∈ d.listedGroups, ∃ line, d.Lineage id line
  parent : ∀ id ∈ d.listedGroups, ∀ parent, d.parent? id = some parent →
    parent ∈ d.listedGroups ∧ (d.subgroups parent).count id = 1
  child : ∀ id ∈ d.listedGroups, ∀ child ∈ d.subgroups id, d.LiesIn child id

namespace Nested

variable {d : Docs} (hd : d.Nested) {id other : GroupId} {line : List GroupId}

include hd

theorem listed_of_mem (hid : id ∈ d.listedGroups) (hline : d.Lineage id line)
    (hother : other ∈ line) : other ∈ d.listedGroups := by
  induction hline with
  | root _ =>
      rw [List.mem_singleton.1 hother]
      exact hid
  | child hsome _ ih =>
      rcases List.mem_cons.1 hother with rfl | hrest
      · exact hid
      · exact ih (hd.parent _ hid _ hsome).1 hrest

theorem length_le (hid : id ∈ d.listedGroups) (hline : d.Lineage id line) :
    line.length ≤ d.groups.size := by
  have hsubset : line ⊆ List.range d.groups.size := by
    intro other hother
    have hexists := hd.exist other (hd.listed_of_mem hid hline hother)
    simpa [group?] using hexists
  simpa using (List.subperm_of_subset hline.nodup hsubset).length_le

theorem listed_of_liesIn (hid : id ∈ d.listedGroups)
    (h : ReflTransGen d.LiesIn id other) : other ∈ d.listedGroups := by
  induction h with
  | refl => exact hid
  | tail _ hlies ih => exact (hd.parent _ ih _ hlies.2).1

theorem mem_lineage (hid : id ∈ d.listedGroups) (hline : d.Lineage id line) :
    other ∈ line ↔ ReflTransGen d.LiesIn id other := by
  constructor
  · intro hother
    induction hline with
    | root _ =>
        rw [List.mem_singleton.1 hother]
    | child hsome _ ih =>
        rcases List.mem_cons.1 hother with rfl | hrest
        · exact .refl
        · exact .head ⟨hid, hsome⟩ (ih (hd.parent _ hid _ hsome).1 hrest)
  · intro h
    induction h using ReflTransGen.head_induction_on generalizing line with
    | refl => cases hline <;> simp
    | head hlies _ ih =>
        cases hline with
        | root hnone => exact absurd (hnone.symm.trans hlies.2) nofun
        | child hsome hline =>
            obtain rfl := Option.some.inj (hsome.symm.trans hlies.2)
            exact List.mem_cons_of_mem _ (ih (hd.parent _ hid _ hsome).1 hline)

theorem acyclic : ¬ TransGen d.LiesIn id id := by
  intro h
  obtain ⟨parent, hlies, hback⟩ := TransGen.head'_iff.1 h
  have hparent := (hd.parent id hlies.1 parent hlies.2).1
  obtain ⟨line, hline⟩ := hd.lineage parent hparent
  have hnodup := (Lineage.child hlies.2 hline).nodup
  exact (List.nodup_cons.1 hnodup).1 ((hd.mem_lineage hparent hline).2 hback)

/-- As many steps as there are groups are enough to come to the end of a way
up. -/
theorem isAncestor_iff (hother : other ∈ d.listedGroups) {steps : Nat}
    (hsteps : d.groups.size ≤ steps) :
    d.isAncestor id steps other = true ↔ ReflTransGen d.LiesIn other id := by
  obtain ⟨line, hline⟩ := hd.lineage other hother
  rw [hline.isAncestor_eq,
    List.take_of_length_le (Nat.le_trans (hd.length_le hother hline) hsteps),
    List.contains_iff_mem, hd.mem_lineage hother hline]

theorem apart (hne : id ≠ other) (hparent : d.parent? id = d.parent? other)
    {below : GroupId} (hbelow : ReflTransGen d.LiesIn below id) :
    ¬ ReflTransGen d.LiesIn below other := by
  have hnot {a b : GroupId} (hab : a ≠ b)
      (hparent : d.parent? a = d.parent? b) : ¬ ReflTransGen d.LiesIn a b := by
    intro h
    obtain heq | ⟨parent, hlies, hrest⟩ := h.cases_head
    · exact hab heq
    · have hlisted := hd.listed_of_liesIn hlies.1 h
      exact hd.acyclic
        (TransGen.head'_iff.2 ⟨parent, ⟨hlisted, hparent ▸ hlies.2⟩, hrest⟩)
  intro hbelow'
  rcases hbelow.total_of_right_unique (LiesIn.rightUnique d) hbelow' with h | h
  · exact hnot hne hparent h
  · exact hnot hne.symm hparent.symm h

end Nested

/-! ## What linking leaves alone -/

def unplaced (g : Group) : Group := { g with groups := [], parent := none }

/-- From `d` to `d'` groups are put into others, and warnings are given. -/
structure Relinks (d d' : Docs) : Prop where
  rest : d' =
    { d with groups := d'.groups, warnings := d'.warnings, notices := d'.notices }
  groups : ∀ id, (d'.group? id).map unplaced = (d.group? id).map unplaced

namespace Relinks

variable {d d' d'' : Docs}

theorem refl (d : Docs) : d.Relinks d := ⟨rfl, fun _ => rfl⟩

theorem trans (h : d.Relinks d') (h' : d'.Relinks d'') : d.Relinks d'' := by
  refine ⟨?_, fun id => (h'.groups id).trans (h.groups id)⟩
  have hrest := h'.rest
  rw [h.rest] at hrest
  exact hrest

theorem warn (d : Docs) (file : Bytes) (pos : Pos) (what : Warning) :
    d.Relinks (d.warn file pos what) :=
  ⟨rfl, fun _ => rfl⟩

theorem modifyGroup (d : Docs) (id : GroupId) {f : Group → Group}
    (hf : ∀ g, unplaced (f g) = unplaced g) :
    d.Relinks (d.modifyGroup id f) := by
  refine ⟨rfl, ?_⟩
  intro other
  rw [group?_modifyGroup]
  split
  · rw [Option.map_map]
    congr 1
    exact funext hf
  · rfl

theorem listedGroups (h : d.Relinks d') : d'.listedGroups = d.listedGroups := by
  rw [h.rest]

theorem block? (h : d.Relinks d') (id : BlockId) : d'.block? id = d.block? id := by
  unfold Docs.block?
  rw [h.rest]

theorem group?_isSome (h : d.Relinks d') (id : GroupId) :
    (d'.group? id).isSome = (d.group? id).isSome := by
  rw [← Option.isSome_map (f := unplaced), h.groups, Option.isSome_map]

theorem size (h : d.Relinks d') : d'.groups.size = d.groups.size := by
  have hlt (id : GroupId) : id < d'.groups.size ↔ id < d.groups.size := by
    have hsome := Bool.eq_iff_iff.1 (h.group?_isSome id)
    simpa [Docs.group?] using hsome
  exact Nat.le_antisymm (Nat.le_of_not_lt fun h => Nat.lt_irrefl _ ((hlt _).1 h))
    (Nat.le_of_not_lt fun h => Nat.lt_irrefl _ ((hlt _).2 h))

theorem map_eq (h : d.Relinks d') {α : Type} {f : Group → α}
    (hf : ∀ g, f (unplaced g) = f g) (id : GroupId) :
    (d'.group? id).map f = (d.group? id).map f := by
  have hsame := congrArg (Option.map f) (h.groups id)
  rw [Option.map_map, Option.map_map] at hsame
  rwa [show f ∘ unplaced = f from funext hf] at hsame

theorem request? (h : d.Relinks d') (id : GroupId) :
    d'.request? id = d.request? id := by
  unfold Docs.request?
  rw [h.map_eq (fun _ => rfl), show d'.block? = d.block? from funext h.block?]

end Relinks

/-! ## Putting a group into another -/

def putInto (d : Docs) (id parent : GroupId) : Docs :=
  (d.modifyGroup id fun g => { g with parent := some parent }).modifyGroup
    parent fun g => { g with groups := g.groups ++ [id] }

theorem relinks_putInto (d : Docs) (id parent : GroupId) :
    d.Relinks (d.putInto id parent) := by
  have hparent :
      d.Relinks (d.modifyGroup id fun g => { g with parent := some parent }) :=
    .modifyGroup d id fun _ => rfl
  exact hparent.trans (.modifyGroup _ _ fun _ => rfl)

theorem parent?_putInto {d : Docs} {id : GroupId} (hid : (d.group? id).isSome)
    (parent other : GroupId) :
    (d.putInto id parent).parent? other = if other = id then
      some parent else d.parent? other := by
  obtain ⟨g, hg⟩ := Option.isSome_iff_exists.1 hid
  unfold parent? putInto
  rw [group?_modifyGroup, group?_modifyGroup]
  by_cases hother : other = id
  · subst hother
    by_cases hself : parent = other <;> simp [hself, hg]
  · by_cases hparent : parent = other
    · cases d.group? other <;> simp [hparent, Ne.symm hother, hother]
    · simp [hparent, Ne.symm hother, hother]

theorem subgroups_putInto {d : Docs} {parent : GroupId}
    (hparent : (d.group? parent).isSome) (id other : GroupId) :
    (d.putInto id parent).subgroups other =
      if other = parent then d.subgroups parent ++ [id]
        else d.subgroups other := by
  obtain ⟨g, hg⟩ := Option.isSome_iff_exists.1 hparent
  unfold subgroups putInto
  rw [group?_modifyGroup, group?_modifyGroup]
  by_cases hother : other = parent
  · subst hother
    by_cases hself : id = other <;> simp [hself, hg]
  · by_cases hid : id = other
    · cases d.group? other <;> simp [hid, Ne.symm hother, hother]
    · simp [hid, Ne.symm hother, hother]

namespace Nested

variable {d : Docs} (hd : d.Nested) {id parent : GroupId}

include hd

/-- A group that lies in no other can be put into any that does not lie in
it. -/
theorem putInto (hid : id ∈ d.listedGroups) (hparent : parent ∈ d.listedGroups)
    (hfree : d.parent? id = none) (hapart : ¬ ReflTransGen d.LiesIn parent id) :
    (d.putInto id parent).Nested := by
  have hrelinks := d.relinks_putInto id parent
  have hparents := parent?_putInto (hd.exist id hid) parent
  have hsubgroups := subgroups_putInto (hd.exist parent hparent) id
  generalize d.putInto id parent = d' at hrelinks hparents hsubgroups ⊢
  have hlisted := hrelinks.listedGroups
  have hkept {other up : GroupId} (h : d.parent? other = some up) :
      d'.parent? other = some up := by
    rw [hparents, if_neg, h]
    rintro rfl
    exact absurd (hfree.symm.trans h) nofun
  -- The way up from the new parent does not pass the group, so it stays as it
  -- is.
  obtain ⟨line, hline⟩ := hd.lineage parent hparent
  have hline' : d'.Lineage parent line := by
    apply hline.of_eq
    intro other hother
    rw [hparents, if_neg]
    rintro rfl
    exact hapart ((hd.mem_lineage hparent hline).1 hother)
  refine ⟨?_, ?_, ?_, ?_⟩
  · intro other hother
    rw [hrelinks.group?_isSome]
    exact hd.exist other (hlisted ▸ hother)
  · intro other hother
    obtain ⟨up, hup⟩ := hd.lineage other (hlisted ▸ hother)
    clear hother
    induction hup with
    | @root other hnone =>
        by_cases hother : other = id
        · exact ⟨_, .child ((hparents other).trans (if_pos hother)) hline'⟩
        · exact ⟨_, .root (by rw [hparents, if_neg hother, hnone])⟩
    | child hsome _ ih =>
        obtain ⟨up, hup⟩ := ih
        exact ⟨_, .child (hkept hsome) hup⟩
  · intro other hother up hup
    rw [hlisted] at hother ⊢
    rw [hparents] at hup
    split at hup
    next heq =>
      obtain rfl := Option.some.inj hup
      have hnew : (d.subgroups parent).count id = 0 := by
        rw [List.count_eq_zero]
        intro hmem
        exact absurd (hfree.symm.trans (hd.child parent hparent id hmem).2) nofun
      refine ⟨hparent, ?_⟩
      rw [hsubgroups, if_pos rfl, List.count_append, heq, hnew,
        List.count_singleton_self]
    next hne =>
      obtain ⟨hup', hcount⟩ := hd.parent other hother up hup
      refine ⟨hup', ?_⟩
      rw [hsubgroups]
      split
      next heq =>
        have hother' : [id].count other = 0 := by simp [List.count_eq_zero, hne]
        rw [List.count_append, hother', ← heq, hcount]
      next => exact hcount
  · intro other hother child hchild
    rw [hlisted] at hother
    rw [hsubgroups] at hchild
    unfold LiesIn
    rw [hlisted]
    have hold (hmem : child ∈ d.subgroups other) : child ∈ d.listedGroups ∧
        d'.parent? child = some other := by
      obtain ⟨hlisted', hlies⟩ := hd.child other hother child hmem
      exact ⟨hlisted', hkept hlies⟩
    split at hchild
    next heq =>
      subst heq
      rcases List.mem_append.1 hchild with hmem | hnew
      · exact hold hmem
      · obtain rfl := List.mem_singleton.1 hnew
        exact ⟨hid, (hparents child).trans (if_pos rfl)⟩
    next => exact hold hchild

end Nested

/-! ## Putting groups into each other -/

/-- Whether a group would come to lie in itself if it were put where it asks to
lie. -/
def ClosesCycle (d : Docs) (id : GroupId) : Prop :=
  ∃ parent, d.request? id = some parent ∧ ReflTransGen d.LiesIn parent id

/-- What is reported of such a group, at the place of its block. -/
def cycleNotice? (d : Docs) (id : GroupId) : Option Notice :=
  (d.group? id).bind fun g => (d.block? g.block).bind fun b =>
    b.group.map fun parent =>
    .warning b.file b.pos
      (.groupCycle g.name (((d.group? parent).map (·.name)).getD []))

/-- What asking a group comes to. -/
inductive LinkStep (d : Docs) (id : GroupId) : Docs → Prop
  | closes {file : Bytes} {pos : Pos} {what : Warning} : d.ClosesCycle id →
      d.cycleNotice? id = some (.warning file pos what) →
      LinkStep d id (d.warn file pos what)
  | free : d.request? id = none → LinkStep d id d
  | joins {parent : GroupId} :
      d.request? id = some parent → ¬ ReflTransGen d.LiesIn parent id →
      LinkStep d id (d.putInto id parent)

theorem Nested.linkGroup {d : Docs} (hd : d.Nested) {id : GroupId}
    (hfree : d.parent? id = none)
    (hrequest : ∀ parent, d.request? id = some parent → parent ∈ d.listedGroups) :
    d.LinkStep id (d.linkGroup id) := by
  unfold Docs.linkGroup
  split
  next hg => exact .free (by simp [request?, hg])
  next g hg =>
    have hroot : g.parent = none := by simpa [parent?, hg] using hfree
    split
    next hb => exact .free (by simp [request?, hg, hb])
    next b hb =>
      have hgroup : d.request? id = b.group := by simp [request?, hg, hb]
      split
      next parent hparent _ =>
        rw [hparent] at hgroup
        have hancestor : d.isAncestor id d.groups.size parent = true ↔ _ :=
          hd.isAncestor_iff (hrequest parent hgroup) (Nat.le_refl _)
        split
        next hcloses =>
          refine .closes ⟨parent, hgroup, hancestor.1 hcloses⟩ ?_
          simp [cycleNotice?, hg, hb, hparent]
        next hapart => exact .joins hgroup (mt hancestor.2 hapart)
      next hnone =>
        refine .free (hgroup.trans ?_)
        cases hparent : b.group with
        | none => rfl
        | some parent => exact (hnone parent hparent hroot).elim

/-- Asking groups one after the other puts all of them where they ask to lie,
except for those that would close a cycle with the links made before, which are
reported. -/
structure Nests (d : Docs) (ids closers : List GroupId) (d' : Docs) : Prop where
  relinks : d.Relinks d'
  nested : d'.Nested
  parent? : ∀ id, d'.parent? id = if id ∈ ids ∧ id ∉ closers then
    d.request? id else d.parent? id
  sublist : closers.Sublist ids
  closes : ∀ before id after, ids = before ++ id :: after →
    (id ∈ closers ↔ (before.foldl linkGroup d).ClosesCycle id)
  notices : d'.notices.toList = d.notices.toList ++
    closers.filterMap d.cycleNotice?
  warnings : d'.warnings = d.warnings + closers.length

theorem cycleNotice?_congr {d d' : Docs}
    (hblock : ∀ id, d'.block? id = d.block? id)
    (hgroup : ∀ id, (d'.group? id).map (fun g => (g.name, g.block)) =
      (d.group? id).map fun g => (g.name, g.block))
    (id : GroupId) : d'.cycleNotice? id = d.cycleNotice? id := by
  have hread (d : Docs) : d.cycleNotice? id =
      ((d.group? id).map fun g => (g.name, g.block)).bind fun g =>
        (d.block? g.2).bind fun b =>
        b.group.map fun parent => .warning b.file b.pos
          (.groupCycle g.1
            ((((d.group? parent).map fun g => (g.name, g.block)).map
              Prod.fst).getD [])) := by
    simp only [Option.bind_map, Option.map_map]
    rfl
  simp only [hread, hgroup, hblock]

theorem Relinks.cycleNotice? {d d' : Docs} (h : d.Relinks d') (id : GroupId) :
    d'.cycleNotice? id = d.cycleNotice? id :=
  cycleNotice?_congr h.block? (h.map_eq fun _ => rfl) id

namespace Nests

variable {d d' : Docs} {id : GroupId} {ids closers : List GroupId}

theorem single {d' : Docs} (hnested : d'.Nested) (hrelinks : d.Relinks d')
    (hparent : ∀ other, d'.parent? other = if other ∈ [id] ∧
      other ∉ closers then d.request? other else d.parent? other)
    (hclosers : closers = [id] ∧ d.ClosesCycle id ∨ closers = [] ∧
      ¬ d.ClosesCycle id)
    (hnotices : d'.notices.toList = d.notices.toList ++
      closers.filterMap d.cycleNotice?)
    (hwarnings : d'.warnings = d.warnings + closers.length) :
    d.Nests [id] closers d' := by
  refine ⟨hrelinks, hnested, hparent, ?_, ?_, hnotices, hwarnings⟩
  · rcases hclosers with ⟨rfl, -⟩ | ⟨rfl, -⟩ <;> simp
  · intro before other after heq
    obtain ⟨rfl, rfl⟩ : before = [] ∧ other = id := by
      cases before with
      | nil => exact ⟨rfl, (List.cons.inj heq).1.symm⟩
      | cons first rest => simp at heq
    rcases hclosers with ⟨rfl, hcloses⟩ | ⟨rfl, hnot⟩
    · simpa using hcloses
    · simpa using hnot

theorem of_step {d' : Docs} (hd : d.Nested) (hid : id ∈ d.listedGroups)
    (hfree : d.parent? id = none)
    (hrequest : ∀ parent, d.request? id = some parent → parent ∈ d.listedGroups)
    (h : d.LinkStep id d') : ∃ closers, d.Nests [id] closers d' := by
  cases h with
  | closes hcloses hnotice =>
      refine ⟨[id], single ?_ (.warn _ _ _ _) ?_ (.inl ⟨rfl, hcloses⟩) ?_ rfl⟩
      · refine ⟨hd.exist, ?_, hd.parent, hd.child⟩
        intro other hother
        obtain ⟨line, hline⟩ := hd.lineage other hother
        exact ⟨line, hline.of_eq fun _ _ => rfl⟩
      · intro other
        rw [if_neg fun h => h.2 h.1]
        rfl
      · simp [hnotice, Docs.warn, Docs.note]
  | free hnone =>
      refine ⟨[], single hd (.refl d) ?_ (.inr ⟨rfl, ?_⟩) (by simp) rfl⟩
      · intro other
        by_cases hother : other = id
        · simp [hother, hnone, hfree]
        · simp [hother]
      · rintro ⟨parent, hparent, -⟩
        exact absurd (hnone.symm.trans hparent) nofun
  | @joins parent hparent hapart =>
      refine ⟨[],
        single (hd.putInto hid (hrequest parent hparent) hfree hapart)
          (d.relinks_putInto id parent) ?_
        (.inr ⟨rfl, ?_⟩) ?_ rfl⟩
      · intro other
        rw [parent?_putInto (hd.exist id hid)]
        by_cases hother : other = id
        · simp [hother, hparent]
        · simp [hother]
      · rintro ⟨parent', hparent', hcycle⟩
        obtain rfl := Option.some.inj (hparent.symm.trans hparent')
        exact hapart hcycle
      · simp [Docs.putInto, Docs.modifyGroup]

theorem cons {closers' : List GroupId}
    (hfirst : d.Nests [id] closers (d.linkGroup id))
    (hrest : (d.linkGroup id).Nests ids closers' d') (hid : id ∉ ids) :
    d.Nests (id :: ids) (closers ++ closers') d' := by
  have hclosers (other : GroupId) (hother : other ∈ closers) : other = id :=
    List.mem_singleton.1 (hfirst.sublist.subset hother)
  have hclosers' : id ∉ closers' := fun hmem => hid (hrest.sublist.subset hmem)
  refine ⟨hfirst.relinks.trans hrest.relinks, hrest.nested, ?_,
    hfirst.sublist.append hrest.sublist, ?_, ?_, ?_⟩
  · intro other
    rw [hrest.parent?, hfirst.parent?, hfirst.relinks.request?]
    by_cases hother : other = id
    · subst hother
      simp [hid, hclosers']
    · have hnot : other ∉ closers := mt (hclosers other) hother
      simp [hother, hnot]
  · intro before other after heq
    cases before with
    | nil =>
        obtain ⟨rfl, -⟩ := List.cons.inj heq
        rw [← hfirst.closes [] id [] rfl, List.mem_append]
        exact or_iff_left hclosers'
    | cons first before =>
        obtain ⟨rfl, hids⟩ := List.cons.inj heq
        rw [List.foldl_cons, ← hrest.closes before other after hids,
          List.mem_append]
        refine or_iff_right ?_
        intro hmem
        rw [hclosers other hmem] at hids
        exact hid (by simp [hids])
  · rw [hrest.notices, hfirst.notices, List.filterMap_append, List.append_assoc,
      show (d.linkGroup id).cycleNotice? = d.cycleNotice? from
        funext hfirst.relinks.cycleNotice?]
  · rw [hrest.warnings, hfirst.warnings, List.length_append, Nat.add_assoc]

end Nests

theorem Nested.exists_nests (ids : List GroupId) {d : Docs} (hd : d.Nested)
    (hnodup : ids.Nodup)
    (hids : ∀ id ∈ ids, id ∈ d.listedGroups ∧ d.parent? id = none ∧
      ∀ parent, d.request? id = some parent → parent ∈ d.listedGroups) :
    ∃ closers, d.Nests ids closers (ids.foldl Docs.linkGroup d) := by
  induction ids generalizing d with
  | nil =>
      refine ⟨[], .refl d, hd, by simp, .refl _, ?_, by simp, rfl⟩
      intro before id after heq
      simp at heq
  | cons id ids ih =>
      obtain ⟨hid, hrest⟩ := List.nodup_cons.1 hnodup
      obtain ⟨⟨hlisted, hfree, hrequest⟩, hothers⟩ := List.forall_mem_cons.1 hids
      obtain ⟨closers, hfirst⟩ :=
        Nests.of_step hd hlisted hfree hrequest (hd.linkGroup hfree hrequest)
      obtain ⟨closers', hall⟩ := ih hfirst.nested hrest fun other hother => by
        have hne : other ≠ id := fun heq => hid (heq ▸ hother)
        rw [hfirst.relinks.listedGroups, hfirst.relinks.request?,
          hfirst.parent?, if_neg (by simp [hne])]
        exact hothers other hother
      exact ⟨closers ++ closers', hfirst.cons hall hid⟩

end Docs

end LuaGloss

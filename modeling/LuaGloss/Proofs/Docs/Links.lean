import LuaGloss.Catalog.Grouping
import Mathlib.Logic.Basic

/-!
# Links between blocks, groups and items

Most of what a block says is text, and most changes of the documentation are
changes of text.  What matters for the question which block documents which
item, and under which reference id, is a small part of each block: its kind, its
item, its footnotes and its reference id.  This module says what each operation
does to that part.
-/

namespace LuaGloss

/-- The part of a block that ties it to other things. -/
structure BlockLinks where
  kind : BlockKind
  item : Option ItemId
  footnotes : List BlockId
  refId : Option Bytes

/-- The part of a group that ties it to other things, its place among the groups
aside. -/
structure GroupLinks where
  name : Bytes
  block : BlockId
  items : List ItemId

def Block.links (b : Block) : BlockLinks := ⟨b.kind, b.item, b.footnotes, b.refId⟩

def Group.links (g : Group) : GroupLinks := ⟨g.name, g.block, g.items⟩

/-- The block `b'` is `b` with more in it.  Only a title can be taken back. -/
structure Block.Continues (b b' : Block) : Prop where
  brief : b.brief <+: b'.brief
  detailed : b.detailed <+: b'.detailed
  seeAlso : b.seeAlso.length ≤ b'.seeAlso.length
  tags : b.tags <+: b'.tags
  imports : b.imports <+: b'.imports
  group : b.group.isSome → b'.group.isSome

theorem Block.Continues.refl (b : Block) : b.Continues b :=
  ⟨List.prefix_rfl, List.prefix_rfl, Nat.le_refl _, List.prefix_rfl,
    List.prefix_rfl, id⟩

namespace Docs

def links? (d : Docs) (id : BlockId) : Option BlockLinks :=
  (d.block? id).map Block.links

def groupLinks? (d : Docs) (id : GroupId) : Option GroupLinks :=
  (d.group? id).map Group.links

theorem links?_isSome {d : Docs} {id : BlockId} :
    (d.links? id).isSome ↔ id < d.blocks.size := by
  simp [links?, block?]

theorem lt_size_of_links? {d : Docs} {id : BlockId} {links : BlockLinks}
    (h : d.links? id = some links) : id < d.blocks.size :=
  links?_isSome.1 (by simp [h])

theorem groupLinks?_isSome {d : Docs} {id : GroupId} :
    (d.groupLinks? id).isSome ↔ id < d.groups.size := by
  simp [groupLinks?, group?]

theorem links?_of_block? {d : Docs} {id : BlockId} {b : Block}
    (h : d.block? id = some b) : d.links? id = some b.links := by
  simp [links?, h]

theorem groupLinks?_of_group? {d : Docs} {id : GroupId} {g : Group}
    (h : d.group? id = some g) : d.groupLinks? id = some g.links := by
  simp [groupLinks?, h]

theorem lookup_filter_ne [BEq α] [LawfulBEq α] (entries : List (α × β))
    {key other : α} (h : other ≠ key) :
    (entries.filter (·.1 != key)).lookup other = entries.lookup other := by
  induction entries with
  | nil => rfl
  | cons entry rest ih =>
      obtain ⟨first, value⟩ := entry
      rw [List.filter_cons, List.lookup_cons]
      by_cases hfirst : first = key
      · have hskip : (other == first) = false := by simpa [hfirst] using h
        rw [if_neg (by simpa using hfirst), ih, hskip]
      · rw [if_pos (by simpa using hfirst), List.lookup_cons, ih]

/-! ## Operations on blocks -/

theorem block?_modifyBlock (d : Docs) (id other : BlockId) (f : Block → Block) :
    (d.modifyBlock id f).block? other = if id = other then
      (d.block? other).map f else d.block? other := by
  simp [modifyBlock, block?, Array.getElem?_modify]

def Blockwise (R : Block → Block → Prop) (d d' : Docs) : Prop :=
  ∀ id b, d.block? id = some b → ∃ b', d'.block? id = some b' ∧ R b b'

namespace Blockwise

variable {R : Block → Block → Prop} {d d' d'' : Docs}

theorem trans (htrans : ∀ {b b' b''}, R b b' → R b' b'' → R b b'')
    (h : d.Blockwise R d') (h' : d'.Blockwise R d'') : d.Blockwise R d'' := by
  intro id b hb
  obtain ⟨b', hb', hR⟩ := h id b hb
  obtain ⟨b'', hb'', hR'⟩ := h' id b' hb'
  exact ⟨b'', hb'', htrans hR hR'⟩

variable (hrefl : ∀ b, R b b)

include hrefl

theorem of_blocks (h : d'.blocks = d.blocks) : d.Blockwise R d' :=
  fun id b hb => ⟨b, by rwa [block?, h], hrefl b⟩

theorem push {new : Block} (h : d'.blocks = d.blocks.push new) :
    d.Blockwise R d' := by
  intro id b hb
  have hlt : id < d.blocks.size := (Array.getElem?_eq_some_iff.1 hb).1
  refine ⟨b, ?_, hrefl b⟩
  rw [block?, h, Array.getElem?_push, if_neg (Nat.ne_of_lt hlt)]
  exact hb

theorem modifyBlock (id : BlockId) {f : Block → Block}
    (hf : ∀ b, d.block? id = some b → R b (f b)) :
    d.Blockwise R (d.modifyBlock id f) := by
  intro other b hb
  rw [block?_modifyBlock, hb]
  split
  next hid => exact ⟨f b, rfl, hf b (hid ▸ hb)⟩
  next => exact ⟨b, rfl, hrefl b⟩

end Blockwise

theorem links?_addBlock (d : Docs) (file : Bytes) (pos : Pos) (id : BlockId) :
    (d.addBlock file pos).links? id =
      if id = d.blocks.size then some ⟨.normal, none, [], none⟩
        else d.links? id := by
  unfold links? block? addBlock
  simp only [Array.getElem?_push]
  split <;> rfl

theorem links?_addFootnote {d : Docs} {parent : BlockId}
    (h : parent < d.blocks.size) (id : BlockId) :
    (d.addFootnote parent).links? id =
      if id = d.blocks.size then some ⟨.footnote parent, none, [], none⟩
      else if id = parent then
        (d.links? id).map fun l =>
          { l with footnotes := l.footnotes ++ [d.blocks.size] }
      else d.links? id := by
  obtain ⟨b, hb⟩ : ∃ b, d.block? parent = some b :=
    ⟨_, Array.getElem?_eq_getElem h⟩
  unfold addFootnote
  rw [hb]
  unfold links? block?
  simp only [Array.getElem?_push, Array.size_modify, Array.getElem?_modify]
  split
  · rfl
  · by_cases hid : parent = id
    · subst hid
      simp [Block.links, Function.comp_def]
    · simp [hid, Ne.symm hid]

theorem links?_modifyBlock (d : Docs) (block id : BlockId) {f : Block → Block}
    {g : BlockLinks → BlockLinks} (hf : ∀ b, (f b).links = g b.links) :
    (d.modifyBlock block f).links? id = if id = block then
      (d.links? id).map g else d.links? id := by
  unfold links?
  rw [block?_modifyBlock]
  by_cases hid : block = id
  · subst hid
    simp [Function.comp_def, hf]
  · simp [hid, Ne.symm hid]

theorem links?_attach (d : Docs) (item : ItemId) (block id : BlockId) :
    (d.attach item block).links? id =
      if id = block then (d.links? id).map fun l => { l with item := some item }
        else d.links? id :=
  d.links?_modifyBlock block id fun _ => rfl

theorem blockOf?_attach (d : Docs) (item other : ItemId) (block : BlockId) :
    (d.attach item block).blockOf? other = if other = item then
      some block else d.blockOf? other := by
  unfold blockOf? attach
  by_cases hother : other = item
  · subst hother
    simp
  · have hne : (other == item) = false := by simpa using hother
    simp only [List.lookup_cons, hne, if_neg hother]
    exact lookup_filter_ne d.attached hother

theorem links?_giveRefId (d : Docs) (block : BlockId) (refId : Bytes)
    (id : BlockId) :
    (d.modifyBlock block fun b => { b with refId := some refId }).links? id =
      if id = block then
        (d.links? id).map fun l => { l with refId := some refId }
        else d.links? id :=
  d.links?_modifyBlock block id fun _ => rfl

/-! ## Operations on groups -/

theorem group?_modifyGroup (d : Docs) (id other : GroupId) (f : Group → Group) :
    (d.modifyGroup id f).group? other = if id = other then
      (d.group? other).map f else d.group? other := by
  simp [modifyGroup, group?, Array.getElem?_modify]

theorem getGroup_of_some {d : Docs} {name : Bytes} {id : GroupId}
    (h : d.findGroup? name = some id) : d.getGroup name = (id, d) := by
  simp [getGroup, h]

theorem links?_getGroup {d : Docs} {name : Bytes} (h : d.findGroup? name = none)
    (id : BlockId) :
    (d.getGroup name).2.links? id =
      if id = d.blocks.size then some ⟨.group d.groups.size, none, [], none⟩
        else d.links? id := by
  unfold getGroup
  rw [h]
  unfold links? block?
  simp only [Array.getElem?_push]
  split <;> rfl

theorem groupLinks?_getGroup {d : Docs} {name : Bytes}
    (h : d.findGroup? name = none) (id : GroupId) :
    (d.getGroup name).2.groupLinks? id =
      if id = d.groups.size then some ⟨name, d.blocks.size, []⟩
        else d.groupLinks? id := by
  unfold getGroup
  rw [h]
  unfold groupLinks? group?
  simp only [Array.getElem?_push]
  split <;> rfl

theorem groupLinks?_addGroupItem (d : Docs) (group : GroupId) (item : ItemId)
    (id : GroupId) :
    (d.addGroupItem group item).groupLinks? id =
      if id = group then
        (d.groupLinks? id).map fun l => if l.items.contains item then
          l else { l with items := l.items ++ [item] }
      else d.groupLinks? id := by
  unfold groupLinks? addGroupItem
  rw [group?_modifyGroup]
  by_cases hid : group = id
  · subst hid
    simp only [if_true, Option.map_map]
    congr 1
    funext g
    by_cases hmem : g.items.contains item = true
    · simp only [Function.comp_apply, Group.links, hmem, if_true]
    · simp only [Function.comp_apply, Group.links, hmem]
      rfl
  · simp [hid, Ne.symm hid]

/-! ## Linking and pruning groups -/

/-- A relation that leads along the operations of which linking and pruning
groups is made up. -/
structure IsRegrouping (R : Docs → Docs → Prop) : Prop where
  refl (d : Docs) : R d d
  trans {d d' d'' : Docs} : R d d' → R d' d'' → R d d''
  note (d : Docs) (notice : Notice) : R d (d.note notice)
  warn (d : Docs) (file : Bytes) (pos : Pos) (what : Warning) :
    R d (d.warn file pos what)
  modifyGroup (d : Docs) (id : GroupId) {f : Group → Group} :
    (∀ g, (f g).links = g.links) → R d (d.modifyGroup id f)
  unlist (d : Docs) (keep : GroupId → Bool) :
    R d { d with listedGroups := d.listedGroups.filter keep }

namespace IsRegrouping

variable {R : Docs → Docs → Prop} (hR : IsRegrouping R)

include hR

theorem foldl {f : Docs → α → Docs} (hf : ∀ d a, R d (f d a)) (as : List α)
    (d : Docs) : R d (as.foldl f d) := by
  induction as generalizing d with
  | nil => exact hR.refl d
  | cons a as ih => exact hR.trans (hf d a) (ih (f d a))

theorem linkGroup (d : Docs) (id : GroupId) : R d (d.linkGroup id) := by
  unfold Docs.linkGroup
  split
  · exact hR.refl d
  · split
    · exact hR.refl d
    · split
      next parent _ _ =>
        split
        · exact hR.warn d _ _ _
        · have hparent :=
            hR.modifyGroup d id (f := fun g => { g with parent := some parent })
              fun _ => rfl
          exact hR.trans hparent (hR.modifyGroup _ _ fun _ => rfl)
      next => exact hR.refl d

theorem pruneGroup (depth : Nat) (d : Docs) (id : GroupId) :
    R d (d.pruneGroup depth id) := by
  induction depth generalizing d id with
  | zero => exact hR.refl d
  | succ depth ih =>
      unfold Docs.pruneGroup
      split
      · exact hR.refl d
      next group hgroup =>
        have hbelow := hR.foldl ih group.groups d
        have hkept (below : Docs) (kept : List GroupId) :
            R below (below.modifyGroup id fun g => { g with groups := kept }) :=
          hR.modifyGroup below id fun _ => rfl
        dsimp only
        split
        · exact hR.trans (hR.trans hbelow (hkept _ _))
            (hR.trans (hR.note _ _) (hR.modifyGroup _ _ fun _ => rfl))
        · exact hR.trans hbelow (hkept _ _)

theorem pruneGroups (d : Docs) : R d d.pruneGroups :=
  hR.trans (hR.foldl (hR.pruneGroup (d.groups.size + 1)) _ d) (hR.unlist _ _)

end IsRegrouping

/-- Blocks and whose they are stay as they are. -/
structure SameBlocks (d d' : Docs) : Prop where
  blocks : d'.blocks = d.blocks
  attached : d'.attached = d.attached

theorem SameBlocks.trans {d d' d'' : Docs} (h : d.SameBlocks d')
    (h' : d'.SameBlocks d'') : d.SameBlocks d'' :=
  ⟨h'.blocks.trans h.blocks, h'.attached.trans h.attached⟩

theorem SameBlocks.isRegrouping : IsRegrouping SameBlocks where
  refl _ := ⟨rfl, rfl⟩
  trans := trans
  note _ _ := ⟨rfl, rfl⟩
  warn _ _ _ _ := ⟨rfl, rfl⟩
  modifyGroup _ _ _ _ := ⟨rfl, rfl⟩
  unlist _ _ := ⟨rfl, rfl⟩

/-! ## Changes that leave the links alone -/

/-- The documentation `d'` has the links of `d`, except that some groups may no
longer be listed. -/
structure Agrees (d d' : Docs) : Prop where
  blocks : ∀ id, d'.links? id = d.links? id
  groups : ∀ id, d'.groupLinks? id = d.groupLinks? id
  attached : d'.attached = d.attached
  usedIds : d'.usedIds = d.usedIds
  listedGroups : d'.listedGroups.Sublist d.listedGroups

namespace Agrees

theorem refl (d : Docs) : d.Agrees d :=
  ⟨fun _ => rfl, fun _ => rfl, rfl, rfl, .refl _⟩

theorem trans {d d' d'' : Docs} (h : d.Agrees d') (h' : d'.Agrees d'') :
    d.Agrees d'' where
  blocks id := (h'.blocks id).trans (h.blocks id)
  groups id := (h'.groups id).trans (h.groups id)
  attached := h'.attached.trans h.attached
  usedIds := h'.usedIds.trans h.usedIds
  listedGroups := h'.listedGroups.trans h.listedGroups

theorem note (d : Docs) (notice : Notice) : d.Agrees (d.note notice) :=
  ⟨fun _ => rfl, fun _ => rfl, rfl, rfl, .refl _⟩

theorem warn (d : Docs) (file : Bytes) (pos : Pos) (what : Warning) :
    d.Agrees (d.warn file pos what) :=
  ⟨fun _ => rfl, fun _ => rfl, rfl, rfl, .refl _⟩

theorem enqueue (d : Docs) (reference : Reference) :
    d.Agrees (d.enqueue reference) :=
  ⟨fun _ => rfl, fun _ => rfl, rfl, rfl, .refl _⟩

theorem modifyBlock (d : Docs) (id : BlockId) {f : Block → Block}
    (hf : ∀ b, (f b).links = b.links) : d.Agrees (d.modifyBlock id f) where
  blocks other := by simp [links?_modifyBlock (g := fun l => l) d id other hf]
  groups _ := rfl
  attached := rfl
  usedIds := rfl
  listedGroups := .refl _

theorem modifyGroup (d : Docs) (id : GroupId) {f : Group → Group}
    (hf : ∀ g, (f g).links = g.links) : d.Agrees (d.modifyGroup id f) where
  blocks _ := rfl
  groups other := by
    unfold groupLinks?
    rw [group?_modifyGroup]
    split
    · rw [Option.map_map]
      congr 1
      exact funext hf
    · rfl
  attached := rfl
  usedIds := rfl
  listedGroups := .refl _

theorem isRegrouping : IsRegrouping Agrees :=
  ⟨refl, trans, note, warn, modifyGroup, fun _ _ =>
    ⟨fun _ => rfl, fun _ => rfl, rfl, rfl, List.filter_sublist⟩⟩

theorem pruneGroups (d : Docs) : d.Agrees d.pruneGroups :=
  isRegrouping.pruneGroups d

theorem blockOf? {d d' : Docs} (h : d.Agrees d') (item : ItemId) :
    d'.blockOf? item = d.blockOf? item := by
  unfold Docs.blockOf?
  rw [h.attached]

end Agrees

end Docs

end LuaGloss

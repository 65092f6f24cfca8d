import LuaGloss.Proofs.Item.WellFormed
import Mathlib.Data.List.Chain

/-!
# Trees and lineages

The tree of an item goes down from owners to the entries of their tables, the
lineage of an item goes up.  In well-formed declarations the two agree: below an
item there are those items in whose lineages every entry is one that its owner
holds.
-/

namespace LuaGloss

namespace Declarations

theorem mem_fieldsOf {d : Declarations} {id field : ItemId} :
    field ∈ d.fieldsOf id ↔ ∃ item table t, d.item? id = some item ∧
      item.initTable? = some table ∧
      d.table? table = some t ∧ field ∈ t.fields := by
  unfold fieldsOf
  constructor
  · intro h
    split at h
    next t ht =>
      obtain ⟨table, htable, ht⟩ := Option.bind_eq_some_iff.1 ht
      obtain ⟨init, hinit, htable⟩ := Option.bind_eq_some_iff.1 htable
      obtain ⟨item, hitem, hinit⟩ := Option.bind_eq_some_iff.1 hinit
      exact ⟨item, table, t,
        hitem, by simp [Item.initTable?, hinit, htable], ht, h⟩
    next => simp at h
  · rintro ⟨item, table, t, hitem, htable, ht, hfield⟩
    obtain ⟨init, hinit, htable⟩ := Option.bind_eq_some_iff.1 htable
    simpa [hitem, hinit, htable, ht] using hfield

theorem fieldsOf_eq_nil {d : Declarations} {id : ItemId} {item : Item}
    (hitem : d.item? id = some item) (hsignature : item.signature?.isSome) :
    d.fieldsOf id = [] := by
  have hvalue (init : Value) (h : init.signature?.isSome) :
      init.table? = none := by
    unfold Value.signature? at h
    unfold Value.table?
    split at h <;> simp_all
  have hnone : item.initTable? = none := by
    unfold Item.signature? at hsignature
    unfold Item.initTable? Item.init?
    split at hsignature
    next heq => simp [heq]
    next init heq => simp [heq, hvalue init hsignature]
    next init _ heq => simp [heq, hvalue init hsignature]
  rw [List.eq_nil_iff_forall_not_mem]
  intro field hfield
  obtain ⟨item', table, -, hitem', htable, -⟩ := mem_fieldsOf.1 hfield
  obtain rfl := Option.some.inj (hitem.symm.trans hitem')
  simp [hnone] at htable

theorem lineage_of_item? {d : Declarations} {id : ItemId} {item : Item}
    (h : d.item? id = some item) : ∃ owners, d.lineage id = id :: owners := by
  unfold lineage
  simp only [h]
  split
  · exact ⟨[], rfl⟩
  · split
    · exact ⟨_, rfl⟩
    · exact ⟨[], rfl⟩

namespace WellFormed

variable {d : Declarations} (hd : d.WellFormed)

include hd

theorem ownerOf?_field {id field : ItemId} (h : field ∈ d.fieldsOf id) :
    ∃ item, d.item? field = some item ∧
    d.ownerOf? item = some id ∧ id < field := by
  obtain ⟨owner, table, t, howner, htable, ht, hfield⟩ := mem_fieldsOf.1 h
  obtain ⟨t', ht', hid⟩ := hd.init id owner table howner htable
  obtain rfl := Option.some.inj (ht.symm.trans ht')
  obtain ⟨item, hitem, hentry⟩ := hd.entry table t ht field hfield
  obtain ⟨owner', howner', -, hbefore⟩ := hd.owner table t ht
  obtain rfl := Option.some.inj (hid.symm.trans howner')
  exact ⟨item, hitem, by simp [ownerOf?, hentry, ht, hid], hbefore field hfield⟩

theorem nodup_fieldsOf (id : ItemId) : (d.fieldsOf id).Nodup := by
  unfold fieldsOf
  split
  next t ht =>
    obtain ⟨table, -, ht⟩ := Option.bind_eq_some_iff.1 ht
    exact (hd.order table t ht).imp Nat.ne_of_lt
  next => exact .nil

theorem treeOf_eq (keep : ItemId → Bool) (id : ItemId) :
    d.treeOf keep id =
      .node id (((d.fieldsOf id).filter keep).map (d.treeOf keep)) := by
  rw [treeOf]
  congr 1
  apply List.map_congr_left
  intro field hfield
  obtain ⟨item, hitem, -, hlt⟩ := hd.ownerOf?_field (List.mem_filter.1 hfield).1
  rw [dif_pos ⟨hlt, lt_size_of_item? hitem⟩]

/-- What holds of an item if it holds of the entries that the item holds, holds
of every item. -/
theorem fieldInduction {motive : ItemId → Prop}
    (h : ∀ id, (∀ field ∈ d.fieldsOf id, motive field) → motive id)
    (id : ItemId) : motive id := by
  induction hn : d.items.size - id using Nat.strongRecOn generalizing id with
  | _ n ih =>
      apply h
      intro field hfield
      obtain ⟨item, hitem, -, hlt⟩ := hd.ownerOf?_field hfield
      have hsize := lt_size_of_item? hitem
      exact ih (d.items.size - field)
        (hn ▸ Nat.sub_lt_sub_left (Nat.lt_trans hlt hsize) hlt) field rfl

theorem lineage_field {id field : ItemId} (h : field ∈ d.fieldsOf id) :
    d.lineage field = field :: d.lineage id := by
  obtain ⟨item, hitem, howner, hlt⟩ := hd.ownerOf?_field h
  rw [lineage]
  simp [hitem, howner, hlt]

theorem lineage_path {path : List ItemId} {id : ItemId}
    (h : (path ++ [id]).IsChain (· ∈ d.fieldsOf ·)) :
    ∀ first ∈ (path ++ [id]).head?, d.lineage first = path ++ d.lineage id := by
  induction path with
  | nil => simp
  | cons field path ih =>
      intro first hfirst
      obtain rfl : field = first := by simpa using hfirst
      cases path with
      | nil =>
          have hfield : field ∈ d.fieldsOf id := by simpa using h
          exact hd.lineage_field hfield
      | cons owner path =>
          obtain ⟨hfield, hrest⟩ := List.isChain_cons_cons.1 h
          rw [hd.lineage_field hfield, ih hrest owner (by simp)]
          rfl

theorem lineage_top {id : ItemId} {item : Item} (h : d.item? id = some item) :
    ∃ path top, d.lineage id = path ++ [top] ∧
    ∃ item', d.item? top = some item' ∧ item'.table? = none := by
  induction id using Nat.strongRecOn generalizing item with
  | _ id ih =>
      rw [lineage]
      simp only [h]
      cases htable : item.table? with
      | none => exact ⟨[], id, by simp [ownerOf?, htable], item, h, htable⟩
      | some table =>
          -- An entry is listed in a table, and every table has an owner.
          obtain ⟨t, ht, hfield⟩ := hd.listed id item table h htable
          obtain ⟨owner, howner, hlt, hbefore⟩ := hd.owner table t ht
          have hbelow := hbefore id hfield
          obtain ⟨item', hitem'⟩ := Option.isSome_iff_exists.1 (item?_isSome.2 hlt)
          obtain ⟨path, top, hlineage, htop⟩ := ih owner hbelow hitem'
          refine ⟨id :: path, top, ?_, htop⟩
          simp [ownerOf?, htable, ht, howner, hbelow, hlineage]

end WellFormed

/-! ## Trees of items that there are -/

/-- All items of the tree exist, and functions hold no entries. -/
inductive Fits (d : Declarations) : ItemTree → Prop
  | node {id : ItemId} {item : Item} {fields : List ItemTree} :
      d.item? id = some item → (item.signature?.isSome → fields = []) →
      (∀ field ∈ fields, Fits d field) →
      Fits d (.node id fields)

theorem Fits.item_lt {d : Declarations} {tree : ItemTree} (h : d.Fits tree) :
    tree.item < d.items.size := by
  cases h with
  | node hitem _ _ => exact lt_size_of_item? hitem

theorem WellFormed.fits_treeOf {d : Declarations} (hd : d.WellFormed)
    (keep : ItemId → Bool) (id : ItemId) (hid : id < d.items.size) :
    d.Fits (d.treeOf keep id) := by
  induction id using hd.fieldInduction with
  | h id ih =>
      obtain ⟨item, hitem⟩ := Option.isSome_iff_exists.1 (item?_isSome.2 hid)
      rw [hd.treeOf_eq]
      apply Fits.node hitem
      · intro hsignature
        simp [fieldsOf_eq_nil hitem hsignature]
      · intro tree htree
        obtain ⟨field, hfield, rfl⟩ := List.mem_map.1 htree
        have hmem := (List.mem_filter.1 hfield).1
        obtain ⟨item', hitem', -⟩ := hd.ownerOf?_field hmem
        exact ih field hmem (lt_size_of_item? hitem')

theorem WellFormed.fits_forest {d : Declarations} (hd : d.WellFormed)
    (keep : ItemId → Bool) : ∀ tree ∈ d.forest keep, d.Fits tree := by
  intro tree htree
  obtain ⟨id, hid, rfl⟩ := List.mem_map.1 htree
  have hlt : id < d.items.size := List.mem_range.1 (List.mem_filter.1 hid).1
  exact hd.fits_treeOf keep id hlt

end Declarations

end LuaGloss

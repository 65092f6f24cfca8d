import LuaGloss.Proofs.Item.Tree
import Mathlib.Data.List.Sort

/-!
# Owners and entries

In well-formed declarations the lists of the tables and the tables of the items
say the same: the entries of a table are the items that name the table as
theirs, each once and in the order of their declarations.  Owners come before
the entries of their tables, so that one can go from an item to the owner of its
table again and again, and comes to an end.
-/

namespace LuaGloss

/-- Whether the item goes by the given name.  An item without a name goes by
none. -/
def Item.isNamed (item : Item) (name : Bytes) : Bool :=
  !item.name.isEmpty && item.name == name

namespace Declarations

/-- The items that name a table as theirs, in the order of their
declarations. -/
def entries (d : Declarations) (table : TableId) : List ItemId :=
  (List.range d.items.size).filter fun id =>
    (d.item? id).any (·.table? = some table)

theorem mem_entries {d : Declarations} {table : TableId} {id : ItemId} :
    id ∈ d.entries table ↔ ∃ item, d.item? id = some item ∧
    item.table? = some table := by
  unfold entries
  rw [List.mem_filter, List.mem_range]
  constructor
  · rintro ⟨-, h⟩
    obtain ⟨item, hitem, htable⟩ := (Option.any_eq_true _ _).1 h
    exact ⟨item, hitem, by simpa using htable⟩
  · rintro ⟨item, hitem, htable⟩
    exact ⟨lt_size_of_item? hitem, by simp [hitem, htable]⟩

theorem pairwise_entries (d : Declarations) (table : TableId) :
    (d.entries table).Pairwise (· < ·) :=
  List.pairwise_lt_range.filter _

/-- The first item has the table of which the second one is an entry. -/
def Owns (d : Declarations) (owner id : ItemId) : Prop :=
  ∃ item, d.item? id = some item ∧ d.ownerOf? item = some owner

/-- Tables, their owners and their entries fit together. -/
structure IsItemGraph (d : Declarations) : Prop where
  /-- Every table has an owner, and the owner is an item. -/
  owner : ∀ id table, d.table? id = some table →
    ∃ owner item, table.owner = some owner ∧ d.item? owner = some item
  /-- What is listed in a table is an item that names the table as its own. -/
  field : ∀ id table, d.table? id = some table →
    ∀ field ∈ table.fields, ∃ item, d.item? field = some item ∧
    item.table? = some id
  /-- An item that names a table as its own is listed there once. -/
  listed : ∀ field item id, d.item? field = some item → item.table? = some id →
    ∃ table, d.table? id = some table ∧ table.fields.count field = 1
  /-- The entries of a table stand in the order of their declarations. -/
  order : ∀ id table, d.table? id = some table → table.fields = d.entries id
  /-- A name leads to the first entry that goes by it. -/
  find : ∀ id table name, d.table? id = some table →
    d.findField id name = table.fields.find? fun field =>
      (d.item? field).any (·.isNamed name)
  /-- An owner is declared before the entries of its table. -/
  precedes : ∀ owner id, d.Owns owner id → owner < id
  /-- Going from owner to owner comes to an end. -/
  ends : WellFounded d.Owns

theorem findField_eq_find? {d : Declarations} {id : TableId} {table : Table}
    (h : d.table? id = some table) (name : Bytes) :
    d.findField id name = table.fields.find? fun field =>
      (d.item? field).any (·.isNamed name) := by
  unfold findField
  rw [h, Option.bind_some]
  by_cases hempty : name.isEmpty = true
  · -- Nothing goes by the empty name.
    have hnone (item : Item) : item.isNamed name = false := by
      rw [List.isEmpty_iff.1 hempty]
      cases hname : item.name with
      | nil => simp [Item.isNamed, hname]
      | cons b rest => simp [Item.isNamed, hname]
    have hfind :
        table.fields.find? (fun field => (d.item? field).any (·.isNamed name)) =
          none := by
      simp [hnone]
    rw [if_pos hempty, hfind]
  · rw [if_neg hempty]
    have hsame (item : Item) : item.isNamed name = (item.name == name) := by
      unfold Item.isNamed
      by_cases heq : item.name = name
      · simp [heq, hempty]
      · simp [heq]
    simp only [hsame]

namespace WellFormed

variable {d : Declarations} (hd : d.WellFormed)

include hd

theorem fields_eq_entries {id : TableId} {table : Table}
    (h : d.table? id = some table) : table.fields = d.entries id := by
  have horder := hd.order id table h
  have hentries := d.pairwise_entries id
  have hmem (field : ItemId) : field ∈ table.fields ↔ field ∈ d.entries id := by
    rw [mem_entries]
    constructor
    · exact hd.entry id table h field
    · rintro ⟨item, hitem, htable⟩
      obtain ⟨table', htable', hfield⟩ := hd.listed field item id hitem htable
      obtain rfl := Option.some.inj (h.symm.trans htable')
      exact hfield
  have hperm : table.fields.Perm (d.entries id) :=
    (List.perm_ext_iff_of_nodup (horder.imp Nat.ne_of_lt)
      (hentries.imp Nat.ne_of_lt)).2 hmem
  exact hperm.eq_of_pairwise' horder hentries

theorem owner_of_table? {id : ItemId} {item : Item} {table : TableId}
    (hitem : d.item? id = some item) (htable : item.table? = some table) :
    ∃ owner, d.ownerOf? item = some owner ∧ owner < id ∧ owner < d.items.size := by
  obtain ⟨t, ht, hfield⟩ := hd.listed id item table hitem htable
  obtain ⟨owner, howner, hlt, hbefore⟩ := hd.owner table t ht
  exact ⟨owner, by simp [ownerOf?, htable, ht, howner], hbefore id hfield, hlt⟩

theorem lt_of_owns {owner id : ItemId} (h : d.Owns owner id) :
    owner < id ∧ owner < d.items.size := by
  obtain ⟨item, hitem, howner⟩ := h
  cases htable : item.table? with
  | none => simp [ownerOf?, htable] at howner
  | some table =>
      obtain ⟨owner', howner', hlt⟩ := hd.owner_of_table? hitem htable
      obtain rfl := Option.some.inj (howner.symm.trans howner')
      exact hlt

theorem isItemGraph : d.IsItemGraph where
  owner id table h := by
    obtain ⟨owner, howner, hlt, -⟩ := hd.owner id table h
    obtain ⟨item, hitem⟩ := Option.isSome_iff_exists.1 (item?_isSome.2 hlt)
    exact ⟨owner, item, howner, hitem⟩
  field := hd.entry
  listed field item id hitem htable := by
    obtain ⟨table, ht, hfield⟩ := hd.listed field item id hitem htable
    have hnodup : table.fields.Nodup := (hd.order id table ht).imp Nat.ne_of_lt
    exact ⟨table, ht, List.count_eq_one_of_mem hnodup hfield⟩
  order _ _ h := hd.fields_eq_entries h
  find _ _ name h := findField_eq_find? h name
  precedes _ _ h := (hd.lt_of_owns h).1
  ends := Subrelation.wf (fun h => (hd.lt_of_owns h).1) Nat.lt_wfRel.wf

theorem lineage_owned {id owner : ItemId} {item : Item}
    (hitem : d.item? id = some item) (howner : d.ownerOf? item = some owner) :
    d.lineage id = id :: d.lineage owner := by
  have hlt := (hd.lt_of_owns ⟨item, hitem, howner⟩).1
  rw [lineage]
  simp [hitem, howner, hlt]

/-- The full name of an entry is made of the full name of the owner of its
table. -/
theorem qualifiedName_eq {id : ItemId} {item : Item}
    (hitem : d.item? id = some item) :
    d.qualifiedName id =
      joinName ((d.ownerOf? item).map d.qualifiedName) item := by
  cases howner : d.ownerOf? item with
  | none =>
      have hline : d.lineage id = [id] := by
        rw [lineage]
        simp [hitem, howner]
      simp [qualifiedName, hline, lineName, hitem]
  | some owner =>
      have hlt := (hd.lt_of_owns ⟨item, hitem, howner⟩).2
      obtain ⟨item', hitem'⟩ := Option.isSome_iff_exists.1 (item?_isSome.2 hlt)
      obtain ⟨owners, howners⟩ := lineage_of_item? hitem'
      simp [qualifiedName, hd.lineage_owned hitem howner, howners, lineName, hitem]

end WellFormed

end Declarations

end LuaGloss

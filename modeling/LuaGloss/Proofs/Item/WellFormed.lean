import LuaGloss.Item.Tree

/-!
# Well-formed declarations

Items and tables refer to each other by number.  Declarations are well formed if
all these numbers mean something: names lead to items, every table has an owner
that was declared before its entries, every entry is listed in its own table and
in no other, and a table that initializes an item belongs to that item.  Each
operation on declarations keeps this.
-/

namespace LuaGloss

namespace Item

def initTable? (item : Item) : Option TableId := item.init?.bind (·.table?)

end Item

namespace Declarations

/-! ## What the operations do -/

@[simp] theorem items_size_add (d : Declarations) (item : Item) :
    (d.add item).items.size = d.items.size + 1 := by
  simp [add]

@[simp] theorem items_size_modifyItem (d : Declarations) (id : ItemId)
    (f : Item → Item) : (d.modifyItem id f).items.size = d.items.size := by
  simp [modifyItem]

def recorded (d : Declarations) (item : Item) : Item :=
  { item with
    isPrimary := match d.fullName? item with
      | some name => (d.overloads name).isEmpty
      | none => true }

@[simp] theorem recorded_initTable? (d : Declarations) (item : Item) :
    (d.recorded item).initTable? = item.initTable? := rfl

theorem item?_add (d : Declarations) (item : Item) (id : ItemId) :
    (d.add item).item? id = if id = d.items.size then
      some (d.recorded item) else d.item? id := by
  unfold item? add
  simp only [Array.getElem?_push]
  rfl

theorem table?_add (d : Declarations) (item : Item) (id : TableId) :
    (d.add item).table? id =
      if item.table? = some id then
        (d.table? id).map fun t => { t with fields := t.fields ++ [d.items.size] }
      else d.table? id := by
  unfold table? add addField
  cases htable : item.table? with
  | none => simp
  | some table =>
      simp only [Array.getElem?_modify, Option.some.injEq]

theorem table?_addTable (d : Declarations) (owner : Option ItemId)
    (id : TableId) :
    (d.addTable owner).table? id = if id = d.tables.size then
      some ⟨owner, []⟩ else d.table? id := by
  unfold table? addTable
  simp only [Array.getElem?_push]

theorem item?_modifyItem (d : Declarations) (id : ItemId) (f : Item → Item)
    (other : ItemId) :
    (d.modifyItem id f).item? other = if id = other then
      (d.item? other).map f else d.item? other := by
  unfold item? modifyItem
  simp only [Array.getElem?_modify]

theorem lt_size_of_item? {d : Declarations} {id : ItemId} {item : Item}
    (h : d.item? id = some item) : id < d.items.size := by
  unfold item? at h
  exact (Array.getElem?_eq_some_iff.1 h).1

theorem item?_isSome {d : Declarations} {id : ItemId} :
    (d.item? id).isSome ↔ id < d.items.size := by
  simp [item?]

theorem lt_size_of_table? {d : Declarations} {id : TableId} {table : Table}
    (h : d.table? id = some table) : id < d.tables.size := by
  unfold table? at h
  exact (Array.getElem?_eq_some_iff.1 h).1

/-! ## The invariant -/

structure WellFormed (d : Declarations) : Prop where
  globals : ∀ entry ∈ d.globals, entry.2 < d.items.size
  locals : ∀ entry ∈ d.locals, entry.2 < d.items.size
  named : ∀ entry ∈ d.named, entry.2 < d.items.size
  /-- Every table has an owner, which comes before all entries. -/
  owner : ∀ id table, d.table? id = some table →
    ∃ owner, table.owner = some owner ∧ owner < d.items.size ∧
    ∀ field ∈ table.fields, owner < field
  /-- What is listed in a table is an entry of it. -/
  entry : ∀ id table, d.table? id = some table →
    ∀ field ∈ table.fields, ∃ item, d.item? field = some item ∧
    item.table? = some id
  /-- Entries stand in the order of their declarations. -/
  order : ∀ id table, d.table? id = some table → table.fields.Pairwise (· < ·)
  /-- An entry is listed in its table. -/
  listed : ∀ field item id, d.item? field = some item → item.table? = some id →
    ∃ table, d.table? id = some table ∧ field ∈ table.fields
  /-- A table that initializes an item is the item's own. -/
  init : ∀ id item table, d.item? id = some item → item.initTable? = some table →
    ∃ t, d.table? table = some t ∧ t.owner = some id

theorem WellFormed.empty : WellFormed .empty := by
  constructor <;> intros <;> simp_all [Declarations.empty, table?, item?]

theorem mem_of_lookup {names : List (Bytes × ItemId)} {name : Bytes} {id : ItemId}
    (h : names.lookup name = some id) : (name, id) ∈ names := by
  obtain ⟨before, after, rfl, -⟩ := List.lookup_eq_some_iff.1 h
  simp

theorem lt_of_mem_register {names : List (Bytes × ItemId)} {n : Nat}
    (hnames : ∀ entry ∈ names, entry.2 < n) {isNew : Bool} {name : Bytes}
    {entry : Bytes × ItemId}
    (h : entry ∈ if isNew = true then register names name n else names) :
    entry.2 < n + 1 := by
  have hcases : entry ∈ names ∨ entry = (name, n) := by
    unfold register at h
    split at h
    · split at h
      · exact .inl h
      · simpa using h
    · exact .inl h
  rcases hcases with hold | rfl
  · exact Nat.lt_succ_of_lt (hnames entry hold)
  · exact Nat.lt_succ_self n

/-- An item can be recorded if the table that it is an entry of is there, and no
table initializes it yet. -/
structure Accepts (d : Declarations) (item : Item) : Prop where
  table : ∀ id, item.table? = some id → (d.table? id).isSome
  init : item.initTable? = none

theorem table?_add_cases {d : Declarations} {item : Item} {id : TableId}
    {table : Table} (h : (d.add item).table? id = some table) :
    ∃ before, d.table? id = some before ∧ table.owner = before.owner ∧
      (item.table? = some id ∧ table.fields = before.fields ++ [d.items.size] ∨
        item.table? ≠ some id ∧ table = before) := by
  rw [table?_add] at h
  split at h
  next hid =>
    obtain ⟨before, hbefore, rfl⟩ := Option.map_eq_some_iff.1 h
    exact ⟨before, hbefore, rfl, .inl ⟨hid, rfl⟩⟩
  next hid => exact ⟨table, h, rfl, .inr ⟨hid, rfl⟩⟩

theorem mem_fields_add {d : Declarations} {item : Item} {id : TableId}
    {table before : Table} {field : ItemId}
    (htable : item.table? = some id ∧
      table.fields = before.fields ++ [d.items.size] ∨ item.table? ≠ some id ∧
      table = before)
    (hfield : field ∈ table.fields) :
    field ∈ before.fields ∨ field = d.items.size ∧ item.table? = some id := by
  rcases htable with ⟨hid, hfields⟩ | ⟨-, rfl⟩
  · rw [hfields] at hfield
    rcases List.mem_append.1 hfield with hold | hnew
    · exact .inl hold
    · exact .inr ⟨by simpa using hnew, hid⟩
  · exact .inl hfield

namespace WellFormed

variable {d : Declarations} (hd : d.WellFormed)

include hd

theorem named_add (item : Item) (entry : Bytes × ItemId)
    (h : entry ∈ (d.add item).named) : entry.2 < d.items.size + 1 := by
  unfold Declarations.add at h
  dsimp only at h
  split at h
  next name =>
    rcases List.mem_append.1 h with hold | hnew
    · exact Nat.lt_succ_of_lt (hd.named entry hold)
    · have heq : entry.2 = d.items.size := by
        simp only [List.mem_singleton] at hnew
        rw [hnew]
      rw [heq]
      exact Nat.lt_succ_self _
  next => exact Nat.lt_succ_of_lt (hd.named entry h)

theorem add {item : Item} (hitem : d.Accepts item) : (d.add item).WellFormed where
  globals entry h := by
    rw [items_size_add]
    exact lt_of_mem_register hd.globals h
  locals entry h := by
    rw [items_size_add]
    exact lt_of_mem_register hd.locals h
  named entry h := by
    rw [items_size_add]
    exact hd.named_add item entry h
  owner id table h := by
    obtain ⟨before, hbefore, howner, htable⟩ := table?_add_cases h
    obtain ⟨owner, heq, hlt, hfields⟩ := hd.owner id before hbefore
    refine ⟨owner,
      howner.trans heq, by rw [items_size_add]; exact Nat.lt_succ_of_lt hlt, ?_⟩
    intro field hfield
    rcases mem_fields_add htable hfield with hold | ⟨rfl, -⟩
    · exact hfields field hold
    · exact hlt
  entry id table h field hfield := by
    obtain ⟨before, hbefore, -, htable⟩ := table?_add_cases h
    rw [item?_add]
    rcases mem_fields_add htable hfield with hold | ⟨rfl, hid⟩
    · obtain ⟨other, hother, hid⟩ := hd.entry id before hbefore field hold
      have hne : field ≠ d.items.size := Nat.ne_of_lt (lt_size_of_item? hother)
      rw [if_neg hne]
      exact ⟨other, hother, hid⟩
    · rw [if_pos rfl]
      exact ⟨_, rfl, hid⟩
  order id table h := by
    obtain ⟨before, hbefore, -, htable⟩ := table?_add_cases h
    have horder := hd.order id before hbefore
    rcases htable with ⟨-, hfields⟩ | ⟨-, rfl⟩
    · rw [hfields, List.pairwise_append]
      refine ⟨horder, List.pairwise_singleton _ _, ?_⟩
      intro field hfield last hlast
      obtain ⟨other, hother, -⟩ := hd.entry id before hbefore field hfield
      rw [List.mem_singleton.1 hlast]
      exact lt_size_of_item? hother
    · exact horder
  listed field other id h hid := by
    rw [item?_add] at h
    rw [table?_add]
    by_cases hnew : field = d.items.size
    · rw [if_pos hnew] at h
      have hitemid : item.table? = some id := by
        rw [← hid, ← Option.some.inj h]
        rfl
      obtain ⟨table, htable⟩ := Option.isSome_iff_exists.1 (hitem.table id hitemid)
      rw [if_pos hitemid, htable]
      exact ⟨_, rfl, by simp [hnew]⟩
    · rw [if_neg hnew] at h
      obtain ⟨table, htable, hfield⟩ := hd.listed field other id h hid
      rw [htable]
      split
      · exact ⟨_, rfl, by simp [hfield]⟩
      · exact ⟨_, rfl, hfield⟩
  init id other table h htable := by
    rw [item?_add] at h
    by_cases hnew : id = d.items.size
    · rw [if_pos hnew] at h
      have hnone := hitem.init
      rw [← recorded_initTable? d, Option.some.inj h, htable] at hnone
      simp at hnone
    · rw [if_neg hnew] at h
      obtain ⟨t, ht, howner⟩ := hd.init id other table h htable
      rw [table?_add, ht]
      split
      · exact ⟨_, rfl, howner⟩
      · exact ⟨t, rfl, howner⟩

theorem addSource (source : SourceText) : (d.addSource source).WellFormed := by
  cases hd
  constructor <;> assumption

theorem addTable {owner : ItemId} (howner : owner < d.items.size) :
    (d.addTable (some owner)).WellFormed where
  globals := hd.globals
  locals := hd.locals
  named := hd.named
  owner id table h := by
    rw [table?_addTable] at h
    split at h
    · rw [← Option.some.inj h]
      exact ⟨owner, rfl, howner, by simp⟩
    · exact hd.owner id table h
  entry id table h field hfield := by
    rw [table?_addTable] at h
    split at h
    · rw [← Option.some.inj h] at hfield
      simp at hfield
    · exact hd.entry id table h field hfield
  order id table h := by
    rw [table?_addTable] at h
    split at h
    · rw [← Option.some.inj h]
      exact .nil
    · exact hd.order id table h
  listed field item id h hid := by
    obtain ⟨table, htable, hfield⟩ := hd.listed field item id h hid
    rw [table?_addTable, if_neg (Nat.ne_of_lt (lt_size_of_table? htable))]
    exact ⟨table, htable, hfield⟩
  init id item table h hinit := by
    obtain ⟨t, ht, howner⟩ := hd.init id item table h hinit
    rw [table?_addTable, if_neg (Nat.ne_of_lt (lt_size_of_table? ht))]
    exact ⟨t, ht, howner⟩

theorem modifyItem {id : ItemId} {f : Item → Item}
    (htable : ∀ item, (f item).table? = item.table?)
    (hinit : ∀ item, d.item? id = some item →
      ∀ table, (f item).initTable? = some table → ∃ t, d.table? table = some t ∧
      t.owner = some id) :
    (d.modifyItem id f).WellFormed where
  globals := by
    rw [items_size_modifyItem]
    exact hd.globals
  locals := by
    rw [items_size_modifyItem]
    exact hd.locals
  named := by
    rw [items_size_modifyItem]
    exact hd.named
  owner := by
    rw [items_size_modifyItem]
    exact hd.owner
  entry table t h field hfield := by
    obtain ⟨item, hitem, hid⟩ := hd.entry table t h field hfield
    rw [item?_modifyItem, hitem]
    split
    · exact ⟨f item, rfl, (htable item).trans hid⟩
    · exact ⟨item, rfl, hid⟩
  order := hd.order
  listed field item table h hid := by
    rw [item?_modifyItem] at h
    split at h
    · obtain ⟨before, hbefore, rfl⟩ := Option.map_eq_some_iff.1 h
      exact hd.listed field before table hbefore ((htable before).symm.trans hid)
    · exact hd.listed field item table h hid
  init other item table h hother := by
    rw [item?_modifyItem] at h
    split at h
    next heq =>
      subst heq
      obtain ⟨before, hbefore, rfl⟩ := Option.map_eq_some_iff.1 h
      exact hinit before hbefore table hother
    next => exact hd.init other item table h hother

/-! ## What names lead to -/

theorem lookup_lt {name : Bytes} {id : ItemId} (h : d.lookup name = some id) :
    id < d.items.size := by
  unfold lookup at h
  rcases Option.or_eq_some_iff.1 h with hglobal | ⟨-, hlocal⟩
  · exact hd.globals _ (mem_of_lookup hglobal)
  · exact hd.locals _ (mem_of_lookup hlocal)

theorem findField_lt {table : TableId} {name : Bytes} {id : ItemId}
    (h : d.findField table name = some id) : id < d.items.size := by
  unfold findField at h
  split at h
  · simp at h
  · obtain ⟨t, ht, hfind⟩ := Option.bind_eq_some_iff.1 h
    obtain ⟨item, hitem, -⟩ :=
      hd.entry table t ht id (List.mem_of_find?_eq_some hfind)
    exact lt_size_of_item? hitem

theorem memberBy_lt {tableOf : ItemId → Option TableId} {path : List Bytes}
    {id target : ItemId} (hid : id < d.items.size)
    (h : d.memberBy tableOf id path = some target) : target < d.items.size := by
  induction path generalizing id with
  | nil =>
      obtain rfl : id = target := by simpa [memberBy] using h
      exact hid
  | cons name path ih =>
      rw [memberBy] at h
      split at h
      next field hfield =>
        obtain ⟨table, -, hfind⟩ := Option.bind_eq_some_iff.1 hfield
        exact ih (hd.findField_lt hfind) h
      next => simp at h

theorem find_lt {name : Bytes} {id : ItemId} (h : d.find name = some id) :
    id < d.items.size := by
  unfold find findBy at h
  split at h
  · simp at h
  · obtain ⟨first, hfirst, hmember⟩ := Option.bind_eq_some_iff.1 h
    exact hd.memberBy_lt (hd.lookup_lt hfirst) hmember

theorem findOverload_lt {name : Bytes} {index : Int} {id : ItemId}
    (h : d.findOverload name index = some id) : id < d.items.size := by
  unfold findOverload at h
  split at h
  · exact hd.find_lt h
  · have hmem := List.mem_of_getElem? h
    unfold overloads at hmem
    obtain ⟨entry, hentry, rfl⟩ := List.mem_map.1 hmem
    exact hd.named entry (List.mem_filter.1 hentry).1
  · simp at h

theorem followAliases_isSome {find : Bytes → Option ItemId} {steps : Nat}
    {id : ItemId} {table : TableId}
    (h : d.followAliases find steps id = some table) :
    (d.table? table).isSome := by
  induction steps generalizing id with
  | zero => simp [followAliases] at h
  | succ steps ih =>
      rw [followAliases] at h
      split at h
      · simp at h
      next init hinit =>
        obtain ⟨item, hitem, hinit⟩ := Option.bind_eq_some_iff.1 hinit
        split at h
        next shape hshape =>
          have htable : item.initTable? = some table := by
            simp [Item.initTable?, hinit, Value.table?, hshape, h]
          obtain ⟨t, ht, -⟩ := hd.init id item table hitem htable
          simp [ht]
        next =>
          split at h
          · exact ih h
          · simp at h
        all_goals simp at h

theorem tableOf_isSome {id : ItemId} {table : TableId}
    (h : d.tableOf id = some table) : (d.table? table).isSome := by
  unfold tableOf tableWithin at h
  exact hd.followAliases_isSome h

end WellFormed

end Declarations

end LuaGloss

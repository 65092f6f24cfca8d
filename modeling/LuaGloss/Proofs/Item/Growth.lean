import LuaGloss.Proofs.Item.WellFormed
import LuaGloss.Recorder
import Mathlib.Logic.Relation

/-!
# Names keep their meaning

Declarations are only ever added to: a new source, table or item, the
initializer of an item that had none, a few more tokens for one that had.  Once
a name means an item, it means the same item ever after, as long as no name is
declared both as a local and as a global variable.

The difficulty is that a dotted name leads through the initializers of
variables, which are filled in when the variables are already known, and that a
reference may have to be followed through other references.  Following a
reference succeeds in a bounded number of steps or not at all, and with more
declarations and more steps it comes to the same result.
-/

namespace LuaGloss

/-- What may become of an item: an initializer that is not empty keeps its shape
and what it refers to. -/
structure Item.Grows (item item' : Item) : Prop where
  name : item'.name = item.name
  isLocal : item'.isLocal = item.isLocal
  table : item'.table? = item.table?
  init : ∀ v, item.init? = some v → v.shape ≠ .empty →
    ∃ v', item'.init? = some v' ∧ v'.shape = v.shape ∧ v'.ref = v.ref

namespace Item.Grows

theorem refl (item : Item) : item.Grows item :=
  ⟨rfl, rfl, rfl, fun v hv _ => ⟨v, hv, rfl, rfl⟩⟩

theorem trans {item item' item'' : Item} (h : item.Grows item')
    (h' : item'.Grows item'') : item.Grows item'' where
  name := h'.name.trans h.name
  isLocal := h'.isLocal.trans h.isLocal
  table := h'.table.trans h.table
  init v hv hshape := by
    obtain ⟨v', hv', hshape', href'⟩ := h.init v hv hshape
    obtain ⟨v'', hv'', hshape'', href''⟩ := h'.init v' hv' (hshape' ▸ hshape)
    exact ⟨v'', hv'', hshape''.trans hshape', href''.trans href'⟩

theorem withInit {item : Item} (h : item.init? = some .none) (init : Value) :
    item.Grows (item.withInit init) := by
  have hempty (v : Value) (hv : item.init? = some v) : v.shape = .empty := by
    obtain rfl := Option.some.inj (h.symm.trans hv)
    rfl
  refine ⟨?_, ?_, ?_, fun v hv hshape => absurd (hempty v hv) hshape⟩
  all_goals
    unfold Item.withInit
    split
  all_goals simp_all [Item.table?]

theorem extendInit (item : Item) (pos : Pos) :
    item.Grows (Recorder.extendInit item pos) := by
  have hextend (v : Value) : (v.extend pos).shape = v.shape ∧
      (v.extend pos).ref = v.ref := by
    unfold Value.extend Value.extendTo
    split <;> exact ⟨rfl, rfl⟩
  unfold Recorder.extendInit
  split
  next table init index hshape =>
    refine ⟨rfl, rfl, by simp [Item.table?, hshape], ?_⟩
    intro v hv _
    obtain rfl : init = v := by simpa [Item.init?, hshape] using hv
    exact ⟨init.extend pos, rfl, hextend init⟩
  next => exact .refl item
  next => exact .refl item

end Item.Grows

namespace Declarations

/-! ## Events -/

/-- What happens to declarations while sources are read. -/
inductive Event : Declarations → Declarations → Prop
  | source (d : Declarations) (source : SourceText) : Event d (d.addSource source)
  | table (d : Declarations) (owner : Option ItemId) : Event d (d.addTable owner)
  | declare (d : Declarations) (item : Item) : Event d (d.add item)
  /-- An item that has no initializer yet gets one. -/
  | init {d : Declarations} {id : ItemId} {item : Item} (init : Value) :
      d.item? id = some item → item.init? = some .none →
      Event d (d.modifyItem id (·.withInit init))
  /-- An initializer reaches further. -/
  | extend (d : Declarations) (id : ItemId) (pos : Pos) :
      Event d (d.modifyItem id (Recorder.extendInit · pos))

/-- What declarations can come to while sources are read. -/
def Unfolds : Declarations → Declarations → Prop := Relation.ReflTransGen Event

/-- Whether `d'` holds all that `d` holds. -/
structure Grows (d d' : Declarations) : Prop where
  size : d.items.size ≤ d'.items.size
  items : ∀ id item, d.item? id = some item →
    ∃ item', d'.item? id = some item' ∧ item.Grows item'
  tables : ∀ id t, d.table? id = some t → ∃ t', d'.table? id = some t' ∧
    t.fields <+: t'.fields
  globals : ∀ name id, d.globals.lookup name = some id →
    d'.globals.lookup name = some id
  locals : ∀ name id, d.locals.lookup name = some id →
    d'.locals.lookup name = some id

/-- Entries of tables are items, and names at the top level lead to items with
these names. -/
structure Named (d : Declarations) : Prop where
  fields : ∀ id t, d.table? id = some t → ∀ field ∈ t.fields, field < d.items.size
  globals : ∀ name id, d.globals.lookup name = some id →
    ∃ item, d.item? id = some item ∧ item.table? = none ∧ item.name = name ∧
    item.isLocal = false
  locals : ∀ name id, d.locals.lookup name = some id →
    ∃ item, d.item? id = some item ∧ item.table? = none ∧ item.name = name ∧
    item.isLocal = true

/-- Whether no name at the top level is declared both as a local and as a global
variable. -/
def Unambiguous (d : Declarations) : Prop :=
  ∀ item ∈ d.items.toList, ∀ item' ∈ d.items.toList, item.table? = none →
    item'.table? = none →
    item.name = item'.name → item.isLocal = item'.isLocal

instance (d : Declarations) : Decidable d.Unambiguous :=
  inferInstanceAs
    (Decidable (∀ item ∈ d.items.toList, ∀ item' ∈ d.items.toList,
      item.table? = none →
    item'.table? = none → item.name = item'.name → item.isLocal = item'.isLocal))

theorem mem_items {d : Declarations} {item : Item} :
    item ∈ d.items.toList ↔ ∃ id, d.item? id = some item := by
  rw [Array.mem_toList_iff, Array.mem_iff_getElem?]
  rfl

/-! ## What events do -/

theorem lookup_register {names : List (Bytes × ItemId)} {name : Bytes}
    {id : ItemId} (h : names.lookup name = some id) (other : Bytes) (n : ItemId) :
    (register names other n).lookup name = some id := by
  unfold register
  split
  · exact h
  · rw [List.lookup_append, h]
    rfl

theorem lookup_register_cases {names : List (Bytes × ItemId)}
    {name other : Bytes} {id n : ItemId}
    (h : (register names other n).lookup name = some id) :
    names.lookup name = some id ∨ name = other ∧ id = n := by
  unfold register at h
  split at h
  · exact .inl h
  · rw [List.lookup_append] at h
    rcases Option.or_eq_some_iff.1 h with hold | ⟨-, hnew⟩
    · exact .inl hold
    · right
      have hmem := mem_of_lookup hnew
      simpa using hmem

namespace Grows

variable {d d' d'' : Declarations}

theorem refl (d : Declarations) : d.Grows d :=
  ⟨Nat.le_refl _, fun _ item h => ⟨item, h, .refl item⟩, fun _ t h =>
    ⟨t, h, List.prefix_rfl⟩, fun _ _ h => h,
    fun _ _ h => h⟩

theorem trans (h : d.Grows d') (h' : d'.Grows d'') : d.Grows d'' where
  size := Nat.le_trans h.size h'.size
  items id item hitem := by
    obtain ⟨item', hitem', hgrows⟩ := h.items id item hitem
    obtain ⟨item'', hitem'', hgrows'⟩ := h'.items id item' hitem'
    exact ⟨item'', hitem'', hgrows.trans hgrows'⟩
  tables id t ht := by
    obtain ⟨t', ht', hfields⟩ := h.tables id t ht
    obtain ⟨t'', ht'', hfields'⟩ := h'.tables id t' ht'
    exact ⟨t'', ht'', hfields.trans hfields'⟩
  globals name id hid := h'.globals name id (h.globals name id hid)
  locals name id hid := h'.locals name id (h.locals name id hid)

theorem modifyItem {id : ItemId} {f : Item → Item}
    (hf : ∀ item, d.item? id = some item → item.Grows (f item)) :
    d.Grows (d.modifyItem id f) where
  size := Nat.le_of_eq (items_size_modifyItem d id f).symm
  items other item hitem := by
    rw [item?_modifyItem]
    by_cases hother : id = other
    · subst hother
      exact ⟨f item, by simp [hitem], hf item hitem⟩
    · exact ⟨item, by simp [hother, hitem], .refl item⟩
  tables _ t ht := ⟨t, ht, List.prefix_rfl⟩
  globals _ _ h := h
  locals _ _ h := h

theorem addTable (d : Declarations) (owner : Option ItemId) :
    d.Grows (d.addTable owner) where
  size := Nat.le_refl _
  items _ item h := ⟨item, h, .refl item⟩
  tables id t ht := by
    refine ⟨t, ?_, List.prefix_rfl⟩
    rw [table?_addTable, if_neg (Nat.ne_of_lt (lt_size_of_table? ht))]
    exact ht
  globals _ _ h := h
  locals _ _ h := h

theorem add (d : Declarations) (item : Item) : d.Grows (d.add item) where
  size := by simp
  items id other hother := by
    refine ⟨other, ?_, .refl other⟩
    rw [item?_add, if_neg (Nat.ne_of_lt (lt_size_of_item? hother))]
    exact hother
  tables id t ht := by
    rw [table?_add, ht]
    split
    · exact ⟨_, rfl, List.prefix_append _ _⟩
    · exact ⟨t, rfl, List.prefix_rfl⟩
  globals name id h := by
    unfold Declarations.add
    dsimp only
    split
    · exact lookup_register h _ _
    · exact h
  locals name id h := by
    unfold Declarations.add
    dsimp only
    split
    · exact lookup_register h _ _
    · exact h

end Grows

theorem Event.grows {d d' : Declarations} (h : d.Event d') : d.Grows d' := by
  cases h with
  | source source =>
      exact ⟨Nat.le_refl _, fun _ item h => ⟨item, h, .refl item⟩, fun _ t h =>
        ⟨t, h, List.prefix_rfl⟩,
        fun _ _ h => h, fun _ _ h => h⟩
  | table owner => exact .addTable d owner
  | declare item => exact .add d item
  | @init id item init hitem hnone =>
      apply Grows.modifyItem
      intro other hother
      obtain rfl := Option.some.inj (hitem.symm.trans hother)
      exact .withInit hnone init
  | extend id pos => exact .modifyItem fun item _ => .extendInit item pos

namespace Named

variable {d d' : Declarations}

theorem empty : Named .empty := by
  constructor <;> simp [Declarations.empty, table?]

theorem of_grows (hd : d.Named) (h : d.Grows d')
    (hfields : ∀ id t, d'.table? id = some t →
      ∀ field ∈ t.fields, field < d'.items.size)
    (hglobals : ∀ name id, d'.globals.lookup name = some id →
      d.globals.lookup name = some id ∨ ∃ item, d'.item? id = some item ∧
      item.table? = none ∧ item.name = name ∧ item.isLocal = false)
    (hlocals : ∀ name id, d'.locals.lookup name = some id →
      d.locals.lookup name = some id ∨ ∃ item, d'.item? id = some item ∧
      item.table? = none ∧ item.name = name ∧ item.isLocal = true) :
    d'.Named where
  fields := hfields
  globals name id hid := by
    rcases hglobals name id hid with hold | hnew
    · obtain ⟨item, hitem, htable, hname, hlocal⟩ := hd.globals name id hold
      obtain ⟨item', hitem', hgrows⟩ := h.items id item hitem
      exact ⟨item', hitem', hgrows.table.trans htable, hgrows.name.trans hname,
        hgrows.isLocal.trans hlocal⟩
    · exact hnew
  locals name id hid := by
    rcases hlocals name id hid with hold | hnew
    · obtain ⟨item, hitem, htable, hname, hlocal⟩ := hd.locals name id hold
      obtain ⟨item', hitem', hgrows⟩ := h.items id item hitem
      exact ⟨item', hitem', hgrows.table.trans htable, hgrows.name.trans hname,
        hgrows.isLocal.trans hlocal⟩
    · exact hnew

theorem modifyItem (hd : d.Named) {id : ItemId} {f : Item → Item}
    (h : d.Grows (d.modifyItem id f)) : (d.modifyItem id f).Named := by
  apply hd.of_grows h
  · intro other t ht field hfield
    exact Nat.lt_of_lt_of_le (hd.fields other t ht field hfield) h.size
  · exact fun _ _ hid => .inl hid
  · exact fun _ _ hid => .inl hid

theorem addTable (hd : d.Named) (owner : Option ItemId) :
    (d.addTable owner).Named := by
  apply hd.of_grows (.addTable d owner)
  · intro id t ht field hfield
    rw [table?_addTable] at ht
    split at ht
    · obtain rfl := Option.some.inj ht
      simp at hfield
    · exact hd.fields id t ht field hfield
  · exact fun _ _ hid => .inl hid
  · exact fun _ _ hid => .inl hid

theorem add (hd : d.Named) (item : Item) : (d.add item).Named := by
  have hnew : (d.add item).item? d.items.size = some (d.recorded item) := by
    rw [item?_add, if_pos rfl]
  apply hd.of_grows (.add d item)
  · intro id t ht field hfield
    obtain ⟨before, hbefore, -, hfields⟩ := table?_add_cases ht
    rw [items_size_add]
    rcases mem_fields_add hfields hfield with hold | ⟨rfl, -⟩
    · exact Nat.lt_succ_of_lt (hd.fields id before hbefore field hold)
    · exact Nat.lt_succ_self _
  · intro name id hid
    unfold Declarations.add at hid
    dsimp only at hid
    split at hid
    next htop =>
      rcases lookup_register_cases hid with hold | ⟨rfl, rfl⟩
      · exact .inl hold
      · simp only [Bool.and_eq_true, Option.isNone_iff_eq_none,
          Bool.not_eq_true'] at htop
        exact .inr ⟨_, hnew, htop.1.1, rfl, htop.2⟩
    next => exact .inl hid
  · intro name id hid
    unfold Declarations.add at hid
    dsimp only at hid
    split at hid
    next htop =>
      rcases lookup_register_cases hid with hold | ⟨rfl, rfl⟩
      · exact .inl hold
      · simp only [Bool.and_eq_true, Option.isNone_iff_eq_none,
          Bool.not_eq_true'] at htop
        exact .inr ⟨_, hnew, htop.1.1, rfl, htop.2⟩
    next => exact .inl hid

theorem event (hd : d.Named) (h : d.Event d') : d'.Named := by
  have hgrows := h.grows
  cases h with
  | source source => exact ⟨hd.fields, hd.globals, hd.locals⟩
  | table owner => exact hd.addTable owner
  | declare item => exact hd.add item
  | init init _ _ => exact hd.modifyItem hgrows
  | extend id pos => exact hd.modifyItem hgrows

end Named

namespace Unfolds

variable {d d' d'' : Declarations}

theorem refl (d : Declarations) : d.Unfolds d := Relation.ReflTransGen.refl

theorem trans (h : d.Unfolds d') (h' : d'.Unfolds d'') : d.Unfolds d'' :=
  Relation.ReflTransGen.trans h h'

theorem single (h : d.Event d') : d.Unfolds d' := Relation.ReflTransGen.single h

theorem grows (h : d.Unfolds d') : d.Grows d' := by
  induction h with
  | refl => exact .refl d
  | tail _ hevent ih => exact ih.trans hevent.grows

theorem named (h : d.Unfolds d') (hd : d.Named) : d'.Named := by
  induction h with
  | refl => exact hd
  | tail _ hevent ih => exact ih.event hevent

end Unfolds

theorem Unambiguous.of_grows {d d' : Declarations} (h' : d'.Unambiguous)
    (h : d.Grows d') : d.Unambiguous := by
  intro item hitem item' hitem' htable htable' hname
  obtain ⟨id, hid⟩ := mem_items.1 hitem
  obtain ⟨id', hid'⟩ := mem_items.1 hitem'
  obtain ⟨after, hafter, hgrows⟩ := h.items id item hid
  obtain ⟨after', hafter', hgrows'⟩ := h.items id' item' hid'
  have hsame : after.isLocal = after'.isLocal := by
    apply h' after (mem_items.2 ⟨id, hafter⟩) after' (mem_items.2 ⟨id', hafter'⟩)
    · exact hgrows.table.trans htable
    · exact hgrows'.table.trans htable'
    · rw [hgrows.name, hgrows'.name]
      exact hname
  rwa [hgrows.isLocal, hgrows'.isLocal] at hsame

/-! ## Finding things -/

namespace Grows

variable {d d' : Declarations} (h : d.Grows d')

include h

theorem lookup (hd' : d'.Named) (hclear : d'.Unambiguous) {name : Bytes}
    {id : ItemId} (hid : d.lookup name = some id) :
    d'.lookup name = some id := by
  unfold Declarations.lookup at hid ⊢
  rcases Option.or_eq_some_iff.1 hid with hglobal | ⟨-, hlocal⟩
  · rw [h.globals name id hglobal]
    rfl
  · have hlocal' := h.locals name id hlocal
    cases hglobal : d'.globals.lookup name with
    | none => exact hlocal'
    | some other =>
        obtain ⟨item, hitem, htable, hname, hkind⟩ := hd'.locals name id hlocal'
        obtain ⟨item', hitem', htable', hname', hkind'⟩ :=
          hd'.globals name other hglobal
        have hsame :=
          hclear item (mem_items.2 ⟨id, hitem⟩) item'
            (mem_items.2 ⟨other, hitem'⟩) htable htable'
            (hname.trans hname'.symm)
        simp [hkind, hkind'] at hsame

theorem followAliases {find find' : Bytes → Option ItemId}
    (hfind : ∀ name id, find name = some id → find' name = some id)
    {steps : Nat} {id : ItemId} {table : TableId}
    (hid : d.followAliases find steps id = some table) :
    d'.followAliases find' steps id = some table := by
  induction steps generalizing id with
  | zero => exact hid
  | succ steps ih =>
      rw [Declarations.followAliases] at hid ⊢
      split at hid
      · simp at hid
      next init hinit =>
        obtain ⟨item, hitem, hinit⟩ := Option.bind_eq_some_iff.1 hinit
        obtain ⟨item', hitem', hgrows⟩ := h.items id item hitem
        have hkept (hshape : init.shape ≠ .empty) := hgrows.init init hinit hshape
        split at hid
        next built hshape =>
          obtain ⟨init', hinit', hshape', -⟩ := hkept (by simp [hshape])
          simpa [hitem', hinit', hshape', hshape] using hid
        next hshape =>
          obtain ⟨init', hinit', hshape', href⟩ := hkept (by simp [hshape])
          split at hid
          next next' hnext =>
            simpa [hitem', hinit', hshape', hshape, href, hfind _ _ hnext]
              using ih hid
          next => simp at hid
        all_goals simp at hid

variable (hd : d.Named)

include hd

theorem findField {table : TableId} {name : Bytes} {id : ItemId}
    (hid : d.findField table name = some id) :
    d'.findField table name = some id := by
  unfold Declarations.findField at hid ⊢
  by_cases hempty : name.isEmpty = true
  · simp [hempty] at hid
  · rw [if_neg hempty] at hid ⊢
    obtain ⟨t, ht, hfind⟩ := Option.bind_eq_some_iff.1 hid
    obtain ⟨t', ht', more, hmore⟩ := h.tables table t ht
    -- The first entries are the same, and an entry has kept its name.
    have hsame : ∀ field ∈ t.fields, (d'.item? field).any (·.name == name) =
        (d.item? field).any (·.name == name) := by
      intro field hfield
      obtain ⟨item, hitem⟩ :=
        Option.isSome_iff_exists.1
          (item?_isSome.2 (hd.fields table t ht field hfield))
      obtain ⟨item', hitem', hgrows⟩ := h.items field item hitem
      simp [hitem, hitem', hgrows.name]
    have hfirst :
        t.fields.find? (fun field => (d'.item? field).any (·.name == name)) =
          some id := by
      rw [← hfind, ← List.head?_filter, ← List.head?_filter,
        List.filter_congr hsame]
    rw [ht', Option.bind_some, ← hmore, List.find?_append, hfirst]
    rfl

theorem memberBy {tableOf tableOf' : ItemId → Option TableId}
    (hof : ∀ id table, tableOf id = some table → tableOf' id = some table)
    {path : List Bytes} {id target : ItemId}
    (hid : d.memberBy tableOf id path = some target) :
    d'.memberBy tableOf' id path = some target := by
  induction path generalizing id with
  | nil => exact hid
  | cons name path ih =>
      rw [Declarations.memberBy] at hid ⊢
      split at hid
      next field hfield =>
        obtain ⟨table, htable, hfind⟩ := Option.bind_eq_some_iff.1 hfield
        rw [hof id table htable, Option.bind_some, h.findField hd hfind]
        exact ih hid
      next => simp at hid

variable (hd' : d'.Named) (hclear : d'.Unambiguous)

include hd' hclear

theorem findBy {tableOf tableOf' : ItemId → Option TableId}
    (hof : ∀ id table, tableOf id = some table → tableOf' id = some table)
    {name : Bytes} {id : ItemId} (hid : d.findBy tableOf name = some id) :
    d'.findBy tableOf' name = some id := by
  unfold Declarations.findBy at hid ⊢
  split at hid
  · simp at hid
  next first path hpath =>
    obtain ⟨top, htop, hmember⟩ := Option.bind_eq_some_iff.1 hid
    rw [h.lookup hd' hclear htop, Option.bind_some]
    exact h.memberBy hd hof hmember

theorem tableWithin {depth depth' : Nat} (hdepth : depth ≤ depth') {id : ItemId}
    {table : TableId} (hid : d.tableWithin depth id = some table) :
    d'.tableWithin depth' id = some table := by
  induction depth generalizing depth' id table with
  | zero => simp [Declarations.tableWithin] at hid
  | succ depth ih =>
      obtain ⟨depth', rfl⟩ : ∃ k, depth' = k + 1 := ⟨depth' - 1, by omega⟩
      rw [Declarations.tableWithin] at hid ⊢
      apply h.followAliases ?_ hid
      intro name target
      apply h.findBy hd hd' hclear
      intro other held
      exact ih (by omega)

theorem find {name : Bytes} {id : ItemId} (hid : d.find name = some id) :
    d'.find name = some id := by
  apply h.findBy hd hd' hclear ?_ hid
  intro other table
  exact h.tableWithin hd hd' hclear (Nat.succ_le_succ h.size)

end Grows

/-- What a name means once it means ever after. -/
theorem Unfolds.find {d d' : Declarations} (hd : Declarations.empty.Unfolds d)
    (h : d.Unfolds d') (hclear : d'.Unambiguous) {name : Bytes} {id : ItemId}
    (hid : d.find name = some id) : d'.find name = some id := by
  have hnamed := hd.named .empty
  exact h.grows.find hnamed (h.named hnamed) hclear hid

end Declarations

end LuaGloss

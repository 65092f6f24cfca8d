import LuaGloss.Proofs.Item.Overloads

/-!
# Full names lead back

The full name of an item is put together upwards, from the item to the owners of
the tables around it.  The meaning of a dotted name is found downwards, from the
top level through the first entries of the given names.  Which declaration of a
name is the first is marked in a third way, when the item is recorded, by the
full name that the item has then.

The three agree.  What is declared later neither moves an item to another table
nor gives a table another owner, so that up to colons the full name that an item
had when it was recorded is the one it has in the end.  So of two entries of one
table with the same name only the earlier one can be marked, and this is the one
that the name leads to.
-/

namespace LuaGloss

namespace Declarations

variable {d d' : Declarations}

/-! ## Full names do not change -/

theorem Event.table_before (h : d.Event d') {id : TableId} {table : Table}
    {field : ItemId} (htable : d'.table? id = some table)
    (hfield : field ∈ table.fields) (hlt : field < d.items.size) :
    ∃ before, d.table? id = some before ∧ field ∈ before.fields ∧
    before.owner = table.owner := by
  cases h with
  | table owner =>
      rw [table?_addTable] at htable
      split at htable
      · obtain rfl := Option.some.inj htable
        simp at hfield
      · exact ⟨table, htable, hfield, rfl⟩
  | declare item =>
      obtain ⟨before, hbefore, howner, hcases⟩ := table?_add_cases htable
      rcases mem_fields_add hcases hfield with hold | ⟨rfl, -⟩
      · exact ⟨before, hbefore, hold, howner.symm⟩
      · exact absurd hlt (Nat.lt_irrefl _)
  | source _ => exact ⟨table, htable, hfield, rfl⟩
  | init _ _ _ => exact ⟨table, htable, hfield, rfl⟩
  | extend _ _ => exact ⟨table, htable, hfield, rfl⟩

theorem Unfolds.table_before (h : d.Unfolds d') {id : TableId} {table : Table}
    {field : ItemId} (htable : d'.table? id = some table)
    (hfield : field ∈ table.fields) (hlt : field < d.items.size) :
    ∃ before, d.table? id = some before ∧ field ∈ before.fields ∧
    before.owner = table.owner := by
  induction h generalizing table with
  | refl => exact ⟨table, htable, hfield, rfl⟩
  | tail hearlier hevent ih =>
      have hlt' := Nat.lt_of_lt_of_le hlt (Unfolds.grows hearlier).size
      obtain ⟨between, hbetween, hfield', howner'⟩ :=
        hevent.table_before htable hfield hlt'
      obtain ⟨before, hbefore, hfield'', howner''⟩ := ih hbetween hfield'
      exact ⟨before, hbefore, hfield'', howner''.trans howner'⟩

theorem le_of_mem_lineage {id other : ItemId} (h : other ∈ d.lineage id) :
    other ≤ id := by
  induction id using Nat.strongRecOn with
  | _ id ih =>
      rw [lineage] at h
      split at h
      · simp at h
      · split at h
        · exact Nat.le_of_eq (List.mem_singleton.1 h)
        next owner _ =>
          split at h
          next hlt =>
            rcases List.mem_cons.1 h with hself | hrest
            · exact Nat.le_of_eq hself
            · exact Nat.le_trans (ih owner hlt hrest) (Nat.le_of_lt hlt)
          next => exact Nat.le_of_eq (List.mem_singleton.1 h)

@[simp] theorem normalize_append (name name' : Bytes) :
    normalize (name ++ name') = normalize name ++ normalize name' :=
  List.map_append

theorem normalize_joinName (owner : Bytes) (item : Item) :
    normalize (joinName (some owner) item) = normalize owner ++ Byte.dot ::
      normalize item.name := by
  have hsep :
      normalize (if item.isMethod then utf8 ":" else utf8 ".") = [Byte.dot] := by
    cases item.isMethod <;> decide
  simp [joinName, hsep]

theorem colon_not_mem_normalize (name : Bytes) : Byte.colon ∉ normalize name := by
  intro h
  obtain ⟨b, -, hb⟩ := List.mem_map.1 h
  split at hb
  · exact absurd hb (by decide)
  next hne => exact hne hb

theorem Grows.normalize_lineName (h : d.Grows d') {line : List ItemId}
    (hline : ∀ id ∈ line, id < d.items.size) :
    normalize (d'.lineName line) = normalize (d.lineName line) := by
  induction line with
  | nil => rfl
  | cons id owners ih =>
      have hlt := hline id (by simp)
      obtain ⟨item, hitem⟩ := Option.isSome_iff_exists.1 (item?_isSome.2 hlt)
      obtain ⟨item', hitem', hgrows⟩ := h.items id item hitem
      cases owners with
      | nil => simp [lineName, hitem, hitem', joinName, hgrows.name]
      | cons owner owners =>
          have howners :=
            ih fun other hother => hline other (List.mem_cons_of_mem id hother)
          simp [lineName, hitem, hitem', normalize_joinName, hgrows.name, howners]

namespace Unfolds

variable (h : d.Unfolds d') (hd' : d'.WellFormed)

include h hd'

theorem ownerOf?_eq {id : ItemId} {item item' : Item}
    (hitem : d.item? id = some item) (hitem' : d'.item? id = some item') :
    d'.ownerOf? item' = d.ownerOf? item := by
  obtain ⟨after, hafter, hgrows⟩ := h.grows.items id item hitem
  obtain rfl := Option.some.inj (hitem'.symm.trans hafter)
  cases htable : item.table? with
  | none => simp [ownerOf?, hgrows.table, htable]
  | some table =>
      have htable' := hgrows.table.trans htable
      obtain ⟨t, ht, hfield⟩ := hd'.listed id item' table hitem' htable'
      obtain ⟨before, hbefore, -, howner⟩ :=
        h.table_before ht hfield (lt_size_of_item? hitem)
      simp [ownerOf?, htable, htable', ht, hbefore, howner]

theorem lineage_eq {id : ItemId} (hid : id < d.items.size) :
    d'.lineage id = d.lineage id := by
  induction id using Nat.strongRecOn with
  | _ id ih =>
      obtain ⟨item, hitem⟩ := Option.isSome_iff_exists.1 (item?_isSome.2 hid)
      obtain ⟨item', hitem', -⟩ := h.grows.items id item hitem
      have howner := h.ownerOf?_eq hd' hitem hitem'
      rw [lineage, lineage]
      simp only [hitem, hitem', howner]
      cases d.ownerOf? item with
      | none => rfl
      | some owner =>
          by_cases hlt : owner < id
          · simp only [hlt, if_true, ih owner hlt (Nat.lt_trans hlt hid)]
          · simp only [hlt, if_false]

theorem normalize_qualifiedName {id : ItemId} (hid : id < d.items.size) :
    normalize (d'.qualifiedName id) = normalize (d.qualifiedName id) := by
  unfold qualifiedName
  rw [h.lineage_eq hd' hid]
  apply h.grows.normalize_lineName
  intro other hother
  exact Nat.lt_of_le_of_lt (le_of_mem_lineage hother) hid

end Unfolds

/-- The full name under which an item is recorded is the one it has ever
after. -/
theorem fullName?_eq {item : Item} (h : (d.add item).Unfolds d')
    (hd' : d'.WellFormed) (hname : item.name ≠ []) :
    d.fullName? item = some (normalize (d'.qualifiedName d.items.size)) := by
  have hnew : (d.add item).item? d.items.size = some (d.recorded item) := by
    rw [item?_add, if_pos rfl]
  obtain ⟨item', hitem', hgrows⟩ := h.grows.items _ _ hnew
  have hsame : item'.name = item.name := hgrows.name
  have howner : d'.ownerOf? item' = d.ownerOf? item := by
    rw [h.ownerOf?_eq hd' hnew hitem']
    have htable : (d.recorded item).table? = item.table? := rfl
    unfold ownerOf?
    rw [htable]
    cases item.table? with
    | none => rfl
    | some table =>
        simp only [table?_add]
        split
        · cases d.table? table <;> rfl
        · rfl
  have hempty : ¬item.name.isEmpty = true := by simpa using hname
  unfold fullName?
  rw [if_neg hempty, hd'.qualifiedName_eq hitem', howner]
  cases htable : item.table? with
  | none => simp [ownerOf?, htable, joinName, hsame]
  | some table =>
      have htable' : item'.table? = some table := hgrows.table.trans htable
      obtain ⟨owner, howner', hlt, -⟩ := hd'.owner_of_table? hitem' htable'
      rw [howner] at howner'
      have hunfolds : d.Unfolds d' := (Unfolds.single (.declare d item)).trans h
      simp [howner', normalize_joinName, hsame,
        hunfolds.normalize_qualifiedName hd' hlt]

/-! ## Marks -/

/-- Every item with a name is recorded under its key, and no item that is
recorded under the key of a marked item comes before it. -/
structure Marked (d : Declarations) (key : ItemId → Bytes) : Prop where
  named : ∀ id item, d.item? id = some item → item.name ≠ [] →
    (key id, id) ∈ d.named
  first : ∀ id item other, d.item? id = some item → item.name ≠ [] →
    item.isPrimary = true → (key id, other) ∈ d.named →
    id ≤ other

namespace Marked

variable {key : ItemId → Bytes}

theorem empty (key : ItemId → Bytes) : Marked .empty key := by
  constructor <;> simp [Declarations.empty, item?]

theorem modifyItem (h : d.Marked key) (id : ItemId) {f : Item → Item}
    (hname : ∀ item, (f item).name = item.name)
    (hprimary : ∀ item, (f item).isPrimary = item.isPrimary) :
    (d.modifyItem id f).Marked key := by
  have hbefore (other : ItemId) (item : Item)
      (hitem : (d.modifyItem id f).item? other = some item) :
      ∃ before, d.item? other = some before ∧ item.name = before.name ∧
      item.isPrimary = before.isPrimary := by
    rw [item?_modifyItem] at hitem
    split at hitem
    · obtain ⟨before, hbefore, rfl⟩ := Option.map_eq_some_iff.1 hitem
      exact ⟨before, hbefore, hname before, hprimary before⟩
    · exact ⟨item, hitem, rfl, rfl⟩
  constructor
  · intro other item hitem hne
    obtain ⟨before, hitem', hname', -⟩ := hbefore other item hitem
    exact h.named other before hitem' (hname' ▸ hne)
  · intro other item third hitem hne hmark hmem
    obtain ⟨before, hitem', hname', hprimary'⟩ := hbefore other item hitem
    exact h.first other before third hitem' (hname' ▸ hne) (hprimary' ▸ hmark) hmem

theorem mem_named_add {item : Item} {entry : Bytes × ItemId} :
    entry ∈ (d.add item).named ↔ entry ∈ d.named ∨
    d.fullName? item = some entry.1 ∧ entry.2 = d.items.size := by
  unfold Declarations.add
  dsimp only
  cases hfull : d.fullName? item with
  | none => simp
  | some name =>
      rw [List.mem_append, List.mem_singleton, Prod.ext_iff, Option.some_inj,
        eq_comm (a := entry.1)]

theorem add (h : d.Marked key) {item : Item}
    (hkey : item.name ≠ [] → d.fullName? item = some (key d.items.size))
    (hnormal : normalize (key d.items.size) = key d.items.size) :
    (d.add item).Marked key where
  named id other hother hname := by
    rw [mem_named_add]
    rw [item?_add] at hother
    split at hother
    next hid =>
      obtain rfl := Option.some.inj hother
      rw [hid]
      exact .inr ⟨hkey hname, rfl⟩
    next => exact .inl (h.named id other hother hname)
  first id other third hother hname hprimary hmem := by
    rw [item?_add] at hother
    rcases mem_named_add.1 hmem with hold | ⟨-, hnew⟩
    · split at hother
      next hid =>
        obtain rfl := Option.some.inj hother
        have hempty : d.overloads (key d.items.size) = [] := by
          simpa [recorded, hkey hname] using hprimary
        have hmem' : third ∈ d.overloads (key d.items.size) := by
          unfold overloads
          rw [hnormal]
          exact List.mem_map.2 ⟨_, List.mem_filter.2 ⟨hid ▸ hold, by simp⟩, rfl⟩
        simp [hempty] at hmem'
      next => exact h.first id other third hother hname hprimary hold
    · obtain rfl : third = d.items.size := hnew
      split at hother
      next hid => exact Nat.le_of_eq hid
      next => exact Nat.le_of_lt (lt_size_of_item? hother)

end Marked

theorem normalize_normalize (name : Bytes) :
    normalize (normalize name) = normalize name :=
  normalize_of_not_mem (colon_not_mem_normalize name)

/-- At all times items are marked by the full names that they have in the
end. -/
theorem Unfolds.marked (hd : Declarations.empty.Unfolds d) (h : d.Unfolds d')
    (hd' : d'.WellFormed) :
    d.Marked fun id => normalize (d'.qualifiedName id) := by
  induction hd with
  | refl => exact .empty _
  | tail hearlier hevent ih =>
      have hbefore := ih ((Unfolds.single hevent).trans h)
      cases hevent with
      | source source => exact ⟨hbefore.named, hbefore.first⟩
      | table owner => exact ⟨hbefore.named, hbefore.first⟩
      | declare item =>
          exact hbefore.add (fullName?_eq h hd') (normalize_normalize _)
      | @init id item init _ _ =>
          apply hbefore.modifyItem
          all_goals
            intro other
            unfold Item.withInit
            split <;> rfl
      | extend id pos =>
          apply hbefore.modifyItem
          all_goals
            intro other
            unfold Recorder.extendInit
            split <;> rfl

/-! ## The way back -/

/-- An item at the top level, or an entry of the table that initializes such an
item, and so on. -/
inductive Reached (d : Declarations) : ItemId → Prop
  | top {id : ItemId} {item : Item} :
      d.item? id = some item → item.table? = none → Reached d id
  | field {owner id : ItemId} :
      Reached d owner → id ∈ d.fieldsOf owner → Reached d id

theorem memberBy_append (tableOf : ItemId → Option TableId) (id : ItemId)
    (path path' : List Bytes) :
    d.memberBy tableOf id (path ++ path') =
      (d.memberBy tableOf id path).bind (d.memberBy tableOf · path') := by
  induction path generalizing id with
  | nil => rfl
  | cons name path ih =>
      rw [List.cons_append, memberBy, memberBy]
      cases (tableOf id).bind (d.findField · name) with
      | none => rfl
      | some field => exact ih field

theorem find_joinName (owner : Bytes) {item : Item}
    (hdot : Byte.dot ∉ item.name) (hcolon : Byte.colon ∉ item.name) :
    d.find (joinName (some owner) item) =
      (d.find owner).bind fun id =>
        (d.tableOf id).bind (d.findField · item.name) := by
  unfold find findBy
  rw [normalize_joinName, Bytes.splitOn_append, normalize_of_not_mem hcolon,
    Bytes.splitOn_of_not_mem hdot]
  cases hsplit : Bytes.splitOn Byte.dot (normalize owner) with
  | nil => exact absurd hsplit (Bytes.splitOn_ne_nil _ _)
  | cons first path =>
      have hlast (id : ItemId) : d.memberBy d.tableOf id [item.name] =
          (d.tableOf id).bind (d.findField · item.name) := by
        rw [memberBy]
        cases (d.tableOf id).bind (d.findField · item.name) <;> rfl
      simp only [List.cons_append, memberBy_append, hlast, Option.bind_assoc]

theorem tableOf_of_initTable? {id : ItemId} {item : Item} {table : TableId}
    (hitem : d.item? id = some item) (htable : item.initTable? = some table) :
    d.tableOf id = some table := by
  obtain ⟨init, hinit, htable⟩ := Option.bind_eq_some_iff.1 htable
  have hshape : init.shape = .table (some table) := by
    unfold Value.table? at htable
    split at htable <;> simp_all
  unfold tableOf tableWithin aliasLimit
  rw [followAliases]
  simp [hitem, hinit, hshape]

theorem mem_declarationsOf {name : Bytes} {id : ItemId} :
    id ∈ d.declarationsOf name ↔
      ∃ item, d.item? id = some item ∧ item.table? = none ∧ item.name ≠ [] ∧
      item.name = name := by
  unfold declarationsOf
  rw [List.mem_filter, List.mem_range, Option.any_eq_true]
  constructor
  · rintro ⟨-, item, hitem, hdeclares⟩
    exact ⟨item,
      hitem, by simpa [Item.declares, Item.isNamed, and_assoc] using hdeclares⟩
  · rintro ⟨item, hitem, hdeclares⟩
    exact ⟨lt_size_of_item? hitem, item,
      hitem, by simpa [Item.declares, Item.isNamed, and_assoc] using hdeclares⟩

theorem Unambiguous.isLocalAt_eq (h : d.Unambiguous) {name : Bytes}
    {id other : ItemId} (hid : id ∈ d.declarationsOf name)
    (hother : other ∈ d.declarationsOf name) :
    d.isLocalAt id = d.isLocalAt other := by
  obtain ⟨item, hitem, htop, -, hname⟩ := mem_declarationsOf.1 hid
  obtain ⟨item', hitem', htop', -, hname'⟩ := mem_declarationsOf.1 hother
  have hsame :=
    h item (mem_items.2 ⟨id, hitem⟩) item' (mem_items.2 ⟨other, hitem'⟩) htop htop'
      (hname.trans hname'.symm)
  simp [isLocalAt, hitem, hitem', hsame]

/-- Whether the item is marked and has a name. -/
def isPrimaryNamedAt (d : Declarations) (id : ItemId) : Bool :=
  (d.item? id).any fun item => item.isPrimary && !item.name.isEmpty

theorem isPrimaryNamedAt_iff {id : ItemId} {item : Item}
    (hitem : d.item? id = some item) :
    d.isPrimaryNamedAt id = true ↔ item.isPrimary = true ∧ item.name ≠ [] := by
  simp [isPrimaryNamedAt, hitem]

theorem find_top (h : Declarations.empty.Unfolds d) {id : ItemId} {item : Item}
    (hitem : d.item? id = some item) (htop : item.table? = none)
    (hname : item.name ≠ []) (hprimary : item.isPrimary = true)
    (hdot : Byte.dot ∉ item.name) (hcolon : Byte.colon ∉ item.name)
    (hclear : ∀ other ∈ d.declarationsOf item.name, d.isLocalAt other =
      d.isLocalAt id) :
    d.find item.name = some id := by
  have hrecords := h.records hdot hcolon
  have hmem : id ∈ (d.declarationsOf item.name).filter d.isPrimaryAt := by
    rw [List.mem_filter]
    exact ⟨mem_declarationsOf.2 ⟨item, hitem, htop, hname,
      rfl⟩, by simp [isPrimaryAt, hitem, hprimary]⟩
  have hhead : (d.declarationsOf item.name).head? = some id := by
    rw [hrecords.primary] at hmem
    cases hlist : d.declarationsOf item.name with
    | nil => simp [hlist] at hmem
    | cons first rest =>
        rw [hlist] at hmem
        simpa [eq_comm] using hmem
  rw [d.find_of_simple hdot hcolon, hrecords.lookup_eq_first_iff hhead]
  intro hlocal other hother
  rw [hclear other hother, hlocal]

theorem findField_entry (h : Declarations.empty.Unfolds d) (hd : d.WellFormed)
    {id : ItemId} {item : Item} {table : TableId} {t : Table}
    (hitem : d.item? id = some item) (ht : d.table? table = some t)
    (hid : id ∈ t.fields) (hname : item.name ≠ [])
    (hprimary : item.isPrimary = true) :
    d.findField table item.name = some id := by
  have hmarked := h.marked (.refl d) hd
  have htable : item.table? = some table := by
    obtain ⟨entry, hentry, htable⟩ := hd.entry table t ht id hid
    rwa [Option.some.inj (hitem.symm.trans hentry)]
  obtain ⟨before, after, hfields⟩ := List.append_of_mem hid
  have horder := hd.order table t ht
  rw [hfields, List.pairwise_append] at horder
  rw [findField_eq_find? ht, hfields, List.find?_eq_some_iff_append]
  refine ⟨by simp [hitem, Item.isNamed, hname], before, after, rfl, ?_⟩
  intro other hother
  have hlt : other < id := horder.2.2 other hother id (by simp)
  obtain ⟨entry, hentry, htable'⟩ :=
    hd.entry table t ht other (by simp [hfields, hother])
  -- An earlier entry of the same name would have the same full name, and then
  -- the later one is not marked.
  have hne : entry.name ≠ item.name := by
    intro heq
    have howner : d.ownerOf? entry = d.ownerOf? item := by
      unfold ownerOf?
      rw [htable, htable']
    have hkey :
        normalize (d.qualifiedName other) = normalize (d.qualifiedName id) := by
      rw [hd.qualifiedName_eq hentry, hd.qualifiedName_eq hitem, howner]
      cases d.ownerOf? item with
      | none => simp [joinName, heq]
      | some owner => simp [normalize_joinName, heq]
    have hnamed := hmarked.named other entry hentry (heq ▸ hname)
    have hle := hmarked.first id item other hitem hname hprimary (hkey ▸ hnamed)
    exact absurd hlt (Nat.not_lt.2 hle)
  simp [hentry, Item.isNamed, hne]

/-- The full name of an item leads back to the item if the item and all owners
above it are marked. -/
theorem find_qualifiedName_of_reached (h : Declarations.empty.Unfolds d)
    (hd : d.WellFormed)
    (hclear : ∀ name, ∀ id ∈ d.declarationsOf name,
      ∀ other ∈ d.declarationsOf name, d.isLocalAt id = d.isLocalAt other)
    (hsimple : ∀ item ∈ d.items.toList, Byte.dot ∉ item.name ∧
      Byte.colon ∉ item.name)
    {id : ItemId} (hreached : d.Reached id)
    (hprimary : ∀ other ∈ d.lineage id, d.isPrimaryNamedAt other = true) :
    d.find (d.qualifiedName id) = some id := by
  induction hreached with
  | @top id item hitem htop =>
      obtain ⟨hdot, hcolon⟩ := hsimple item (mem_items.2 ⟨id, hitem⟩)
      obtain ⟨owners, howners⟩ := lineage_of_item? hitem
      obtain ⟨hmark, hname⟩ :=
        (isPrimaryNamedAt_iff hitem).1 (hprimary id (by simp [howners]))
      have hqualified : d.qualifiedName id = item.name := by
        rw [hd.qualifiedName_eq hitem]
        simp [ownerOf?, htop, joinName]
      have hdeclares : id ∈ d.declarationsOf item.name :=
        mem_declarationsOf.2 ⟨item, hitem, htop, hname, rfl⟩
      rw [hqualified]
      exact find_top h hitem htop hname hmark hdot hcolon fun other hother =>
        hclear _ other hother id hdeclares
  | @field owner id hreached hfield ih =>
      obtain ⟨ownerItem, table, t, hownerItem, htable, ht, hid⟩ :=
        mem_fieldsOf.1 hfield
      obtain ⟨item, hitem, howner, -⟩ := hd.ownerOf?_field hfield
      obtain ⟨hdot, hcolon⟩ := hsimple item (mem_items.2 ⟨id, hitem⟩)
      have hline := hd.lineage_field hfield
      obtain ⟨hmark, hname⟩ :=
        (isPrimaryNamedAt_iff hitem).1 (hprimary id (by simp [hline]))
      have hfound :=
        ih fun other hother => hprimary other (by simp [hline, hother])
      have hqualified :
          d.qualifiedName id = joinName (some (d.qualifiedName owner)) item := by
        rw [hd.qualifiedName_eq hitem, howner]
        rfl
      rw [hqualified, find_joinName _ hdot hcolon, hfound, Option.bind_some,
        tableOf_of_initTable? hownerItem htable]
      exact findField_entry h hd hitem ht hid hname hmark

end Declarations

end LuaGloss

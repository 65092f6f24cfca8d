import LuaGloss.Proofs.Item.Tree
import LuaGloss.Proofs.Page.Definitions
import Mathlib.Data.List.Nodup

/-!
# Which items are shown

Pages go down from the items at the top level, through the tables that items
hold.  They stop at the values of an enumeration.  So an item is shown if it is
to be rendered and the pages get down to it along its lineage, and then it is
shown once.
-/

namespace LuaGloss

namespace Entity

def item? : Entity → Option ItemId
  | item id => some id
  | footnote _ | group _ | global => none

/-- The items among what is shown. -/
def items (shown : List (Form × Entity)) : List ItemId :=
  shown.filterMap fun e => e.2.item?

@[simp] theorem items_nil : items [] = [] := rfl

@[simp] theorem items_cons_item (form : Form) (id : ItemId)
    (shown : List (Form × Entity)) :
    items ((form, .item id) :: shown) = id :: items shown := rfl

@[simp] theorem items_append (shown shown' : List (Form × Entity)) :
    items (shown ++ shown') = items shown ++ items shown' := by
  simp [items]

@[simp] theorem items_notes (c : Catalog) (block : Option BlockId) :
    items (c.notes block) = [] := by
  simp [items, Catalog.notes, item?]

@[simp] theorem items_map_item (form : Form) (ids : List ItemId) :
    items (ids.map fun id => (form, .item id)) = ids := by
  induction ids with
  | nil => rfl
  | cons id ids ih => simpa using ih

theorem items_flatMap (shown : α → List (Form × Entity)) (as : List α) :
    items (as.flatMap shown) = as.flatMap fun a => items (shown a) := by
  induction as with
  | nil => rfl
  | cons a as ih => simp [ih]

end Entity

namespace Catalog

open LuaGloss.Entity (items)

theorem shownInAll_eq (c : Catalog) (trees : List ItemTree) :
    c.shownInAll trees = trees.flatMap c.shownIn := by
  induction trees with
  | nil => rw [shownInAll, List.flatMap_nil]
  | cons tree trees ih => rw [shownInAll, List.flatMap_cons, ih]

def itemsBelow (c : Catalog) (id : ItemId) : List ItemId :=
  items (c.shownIn (c.declarations.treeOf c.isRendered id))

def renderedFields (c : Catalog) (id : ItemId) : List ItemId :=
  (c.declarations.fieldsOf id).filter c.isRendered

theorem item_treeOf (d : Declarations) (keep : ItemId → Bool) (id : ItemId) :
    (d.treeOf keep id).item = id := by
  rw [Declarations.treeOf]
  rfl

theorem itemsBelow_eq {c : Catalog} (hd : c.declarations.WellFormed)
    (id : ItemId) :
    c.itemsBelow id =
      id :: if c.kindOf id = .enum then
        c.renderedFields id else (c.renderedFields id).flatMap c.itemsBelow := by
  have hbelow :
      items (c.shownInAll
        ((c.renderedFields id).map (c.declarations.treeOf c.isRendered))) =
      (c.renderedFields id).flatMap c.itemsBelow := by
    rw [shownInAll_eq, List.flatMap_map, Entity.items_flatMap]
    rfl
  have htree : c.itemsBelow id =
      items (c.shownIn
        (.node id ((c.renderedFields id).map
          (c.declarations.treeOf c.isRendered)))) := by
    unfold itemsBelow
    rw [hd.treeOf_eq]
    rfl
  rw [htree, shownIn]
  cases hkind : c.kindOf id with
  | enum => simp [List.map_map, Function.comp_def, item_treeOf]
  | normal => simpa using hbelow
  | class_ => simpa using hbelow
  | struct => simpa using hbelow
  | module_ => simpa using hbelow

/-! ## The way down -/

/-- The pages get from an item down to the first of the path: every item on the
way holds the one before it and is shown, and only the first may be a value of
an enumeration. -/
structure LeadsDown (c : Catalog) (path : List ItemId) (id : ItemId) : Prop where
  held : (path ++ [id]).IsChain (· ∈ c.declarations.fieldsOf ·)
  kept : ∀ item ∈ path, c.isRendered item = true
  open_ : ∀ owner ∈ (path ++ [id]).drop 2, c.kindOf owner ≠ .enum

theorem mem_drop_concat {l : List α} {a b : α} {n : Nat}
    (h : b ∈ (l ++ [a]).drop n) : b ∈ l.drop n ∨ b = a := by
  rw [List.drop_append] at h
  rcases List.mem_append.1 h with hmem | hlast
  · exact .inl hmem
  · exact .inr (by simpa using List.mem_of_mem_drop hlast)

theorem LeadsDown.extend {c : Catalog} {path : List ItemId} {field id : ItemId}
    (h : c.LeadsDown path field) (hfield : field ∈ c.renderedFields id)
    (hopen : path ≠ [] → c.kindOf id ≠ .enum) :
    c.LeadsDown (path ++ [field]) id := by
  obtain ⟨hmem, hkeep⟩ := List.mem_filter.1 hfield
  constructor
  · rw [List.append_assoc]
    exact List.isChain_append_cons_cons.2 ⟨h.held, hmem, .singleton _⟩
  · intro item hitem
    rcases List.mem_append.1 hitem with hpath | hlast
    · exact h.kept item hpath
    · rw [List.mem_singleton.1 hlast]
      exact hkeep
  · intro owner howner
    cases path with
    | nil => simp at howner
    | cons first rest =>
        rcases mem_drop_concat howner with hbefore | rfl
        · exact h.open_ owner hbefore
        · exact hopen (by simp)

theorem LeadsDown.last {c : Catalog} {path : List ItemId} {field id : ItemId}
    (h : c.LeadsDown (path ++ [field]) id) :
    c.LeadsDown path field ∧ field ∈ c.renderedFields id ∧
    (path ≠ [] → c.kindOf id ≠ .enum) := by
  have hheld := h.held
  rw [List.append_assoc] at hheld
  obtain ⟨hrest, hmem, -⟩ := List.isChain_append_cons_cons.1 hheld
  have hkept : c.isRendered field = true := h.kept field (by simp)
  refine ⟨⟨hrest, fun item hitem => h.kept item (by simp [hitem]), ?_⟩,
    List.mem_filter.2 ⟨hmem, hkept⟩, ?_⟩
  · intro owner howner
    apply h.open_
    rw [List.drop_append]
    exact List.mem_append_left _ howner
  · intro hpath
    apply h.open_
    cases path with
    | nil => exact (hpath rfl).elim
    | cons first rest => cases rest <;> simp

theorem mem_itemsBelow_self {c : Catalog} (hd : c.declarations.WellFormed)
    (id : ItemId) : id ∈ c.itemsBelow id := by
  rw [itemsBelow_eq hd]
  exact List.mem_cons_self

theorem mem_itemsBelow {c : Catalog} (hd : c.declarations.WellFormed)
    {id item : ItemId} :
    item ∈ c.itemsBelow id ↔ ∃ path, c.LeadsDown path id ∧
    (path ++ [id]).head? = some item := by
  constructor
  · intro h
    induction id using hd.fieldInduction with
    | h id ih =>
        rw [itemsBelow_eq hd] at h
        rcases List.mem_cons.1 h with rfl | hbelow
        · exact ⟨[], ⟨.singleton _, by simp, by simp⟩, rfl⟩
        · have hhere (field : ItemId) : c.LeadsDown [] field :=
            ⟨.singleton _, by simp, by simp⟩
          split at hbelow
          next =>
            exact ⟨[item], (hhere item).extend hbelow (by simp), rfl⟩
          next hopen =>
            obtain ⟨field, hfield, hitem⟩ := List.mem_flatMap.1 hbelow
            obtain ⟨path, hpath, hhead⟩ :=
              ih field (List.mem_filter.1 hfield).1 hitem
            refine ⟨path ++ [field], hpath.extend hfield fun _ => hopen, ?_⟩
            rw [List.head?_append, hhead]
            rfl
  · intro ⟨path, hpath, hhead⟩
    induction path using List.reverseRecOn generalizing id with
    | nil =>
        obtain rfl : id = item := by simpa using hhead
        exact mem_itemsBelow_self hd id
    | append_singleton path field ih =>
        -- The path is taken apart at the top, where the tree begins.
        obtain ⟨hrest, hfield, hopen⟩ := hpath.last
        have hhead' : (path ++ [field]).head? = some item := by
          cases path with
          | nil => simpa using hhead
          | cons first rest => simpa using hhead
        have hitem := ih hrest hhead'
        rw [itemsBelow_eq hd]
        apply List.mem_cons_of_mem
        split
        next henum =>
          have hnil : path = [] :=
            Classical.byContradiction fun hne => hopen hne henum
          subst hnil
          obtain rfl : field = item := by simpa using hhead'
          exact hfield
        next => exact List.mem_flatMap.2 ⟨field, hfield, hitem⟩

theorem lineage_suffix {c : Catalog} (hd : c.declarations.WellFormed)
    {id item : ItemId} (h : item ∈ c.itemsBelow id) :
    c.declarations.lineage id <:+ c.declarations.lineage item := by
  obtain ⟨path, hpath, hhead⟩ := (mem_itemsBelow hd).1 h
  rw [hd.lineage_path hpath.held item hhead]
  exact List.suffix_append _ _

/-! ## No item is shown twice -/

/-- Different items of equal rank have nothing below them in common. -/
theorem disjoint_itemsBelow {c : Catalog} (hd : c.declarations.WellFormed)
    {id id' : ItemId} {owners : List ItemId}
    (hid : c.declarations.lineage id = id :: owners)
    (hid' : c.declarations.lineage id' = id' :: owners) (hne : id ≠ id') :
    List.Disjoint (c.itemsBelow id) (c.itemsBelow id') := by
  intro item hitem hitem'
  have hsuffix := lineage_suffix hd hitem
  have hsuffix' := lineage_suffix hd hitem'
  rw [hid] at hsuffix
  rw [hid'] at hsuffix'
  -- Both lineages end the lineage of the item, and they are equally long.
  have heq : id :: owners = id' :: owners :=
    (List.suffix_of_suffix_length_le hsuffix hsuffix' (by simp)).eq_of_length
      (by simp)
  exact hne (List.cons.inj heq).1

theorem nodup_flatMap_itemsBelow {c : Catalog} (hd : c.declarations.WellFormed)
    {ids owners : List ItemId} (hids : ids.Nodup)
    (hlineage : ∀ id ∈ ids, c.declarations.lineage id = id :: owners)
    (hbelow : ∀ id ∈ ids, (c.itemsBelow id).Nodup) :
    (ids.flatMap c.itemsBelow).Nodup := by
  rw [List.nodup_flatMap]
  refine ⟨hbelow, hids.pairwise_of_forall_ne ?_⟩
  intro id hid id' hid' hne
  exact disjoint_itemsBelow hd (hlineage id hid) (hlineage id' hid') hne

theorem nodup_itemsBelow {c : Catalog} (hd : c.declarations.WellFormed)
    (id : ItemId) : (c.itemsBelow id).Nodup := by
  induction id using hd.fieldInduction with
  | h id ih =>
      have hfields : (c.renderedFields id).Nodup := (hd.nodup_fieldsOf id).filter _
      have hlineage (field : ItemId) (hfield : field ∈ c.renderedFields id) :
          c.declarations.lineage field = field :: c.declarations.lineage id :=
        hd.lineage_field (List.mem_filter.1 hfield).1
      have hnot (field : ItemId) (hfield : field ∈ c.renderedFields id) :
          id ∉ c.itemsBelow field := by
        intro hmem
        have hlength := (lineage_suffix hd hmem).length_le
        rw [hlineage field hfield, List.length_cons] at hlength
        exact Nat.not_succ_le_self _ hlength
      rw [itemsBelow_eq hd, List.nodup_cons]
      split
      next =>
        refine ⟨?_, hfields⟩
        intro hmem
        exact hnot id hmem (mem_itemsBelow_self hd id)
      next =>
        refine ⟨?_,
          nodup_flatMap_itemsBelow hd hfields hlineage fun field hfield =>
          ih field (List.mem_filter.1 hfield).1⟩
        intro hmem
        obtain ⟨field, hfield, hbelow⟩ := List.mem_flatMap.1 hmem
        exact hnot field hfield hbelow

/-! ## What is shown in all -/

/-- The pages get down to an item: every entry in its lineage is one that its
owner holds, and only the item itself may be a value of an enumeration. -/
def IsReached (c : Catalog) (id : ItemId) : Prop :=
  (c.declarations.lineage id).IsChain (· ∈ c.declarations.fieldsOf ·) ∧
    ∀ owner ∈ (c.declarations.lineage id).drop 2, c.kindOf owner ≠ .enum

instance (c : Catalog) (id : ItemId) : Decidable (c.IsReached id) :=
  inferInstanceAs (Decidable (_ ∧ _))

theorem isRendered_owner {c : Catalog} {id owner : ItemId} {item : Item}
    (hitem : c.item? id = some item)
    (howner : c.declarations.ownerOf? item = some owner)
    (hlineage : c.declarations.lineage id = id :: c.declarations.lineage owner)
    (h : c.isRendered id = true) : c.isRendered owner = true := by
  have htable : item.table?.isNone = false := by
    unfold Declarations.ownerOf? at howner
    split at howner
    next htable => simp [htable]
    next => simp at howner
  unfold isRendered at h ⊢
  rw [hlineage, isLineRendered.eq_def] at h
  simp only [hitem, htable, Bool.false_or, Bool.and_eq_true] at h
  exact h.2.1.2

theorem isRendered_of_mem_lineage {c : Catalog} {id owner : ItemId}
    (h : c.isRendered id = true) (howner : owner ∈ c.declarations.lineage id) :
    c.isRendered owner = true := by
  induction id using Nat.strongRecOn with
  | _ id ih =>
      have hsame : owner = id → c.isRendered owner = true := by
        rintro rfl
        exact h
      rw [Declarations.lineage] at howner
      split at howner
      next => simp at howner
      next item hitem =>
        split at howner
        next => exact hsame (by simpa using howner)
        next parent hparent =>
          split at howner
          next hlt =>
            have hlineage : c.declarations.lineage id = id ::
                c.declarations.lineage parent := by
              rw [Declarations.lineage]
              simp [hitem, hparent, hlt]
            rcases List.mem_cons.1 howner with heq | hmem
            · exact hsame heq
            · exact ih parent hlt (isRendered_owner hitem hparent hlineage h) hmem
          next => exact hsame (by simpa using howner)

def tops (c : Catalog) : List ItemId :=
  (List.range c.declarations.items.size).filter fun id =>
    (c.declarations.item? id).any (·.table?.isNone) && c.isRendered id

theorem items_shown (c : Catalog) :
    items c.shown = c.tops.flatMap c.itemsBelow := by
  have hgroups : items (c.docs.listedGroups.flatMap c.shownOfGroup) = [] := by
    rw [Entity.items_flatMap, List.flatMap_eq_nil_iff]
    intro id _
    exact Entity.items_notes c _
  have htops : items (c.shownInAll (c.declarations.forest c.isRendered)) =
      c.tops.flatMap c.itemsBelow := by
    rw [shownInAll_eq]
    change items ((c.tops.map _).flatMap _) = _
    rw [List.flatMap_map, Entity.items_flatMap]
    rfl
  unfold shown
  rw [Entity.items_append, hgroups, List.append_nil]
  exact htops

theorem lineage_of_mem_tops {c : Catalog} {id : ItemId} (h : id ∈ c.tops) :
    c.declarations.lineage id = [id] := by
  have hany := (List.mem_filter.1 h).2
  cases hitem : c.declarations.item? id with
  | none => simp [hitem] at hany
  | some item =>
      have htable : item.table? = none := by simp_all
      rw [Declarations.lineage]
      simp [hitem, Declarations.ownerOf?, htable]

/-- An item is shown if it is to be rendered and the pages get down to it. -/
theorem mem_items_shown {c : Catalog} (hd : c.declarations.WellFormed)
    {id : ItemId} :
    id ∈ items c.shown ↔ c.isRendered id = true ∧ c.IsReached id := by
  rw [items_shown, List.mem_flatMap]
  constructor
  · intro ⟨top, htop, hid⟩
    obtain ⟨path, hpath, hhead⟩ := (mem_itemsBelow hd).1 hid
    have hlineage : c.declarations.lineage id = path ++ [top] := by
      rw [hd.lineage_path hpath.held id hhead, lineage_of_mem_tops htop]
    have htop' : c.isRendered top = true := by
      have h := (List.mem_filter.1 htop).2
      simp only [Bool.and_eq_true] at h
      exact h.2
    constructor
    · cases path with
      | nil =>
          obtain rfl : top = id := by simpa using hhead
          exact htop'
      | cons first rest =>
          obtain rfl : first = id := by simpa using hhead
          exact hpath.kept first (by simp)
    · unfold IsReached
      rw [hlineage]
      exact ⟨hpath.held, hpath.open_⟩
  · intro ⟨hrendered, hheld, hopen⟩
    obtain ⟨item, hitem⟩ :=
      Option.isSome_iff_exists.1
        (Declarations.item?_isSome.2 (lt_size_of_isRendered hrendered))
    obtain ⟨path, top, hlineage, item', hitem', htable⟩ := hd.lineage_top hitem
    obtain ⟨owners, hcons⟩ := Declarations.lineage_of_item? hitem
    have hkept (owner : ItemId) (howner : owner ∈ path ++ [top]) :
        c.isRendered owner = true :=
      isRendered_of_mem_lineage hrendered (hlineage ▸ howner)
    have hhead : (path ++ [top]).head? = some id := by
      rw [← hlineage, hcons]
      rfl
    rw [hlineage] at hheld hopen
    refine ⟨top, ?_, (mem_itemsBelow hd).2 ⟨path, ⟨hheld, ?_, hopen⟩, hhead⟩⟩
    · apply List.mem_filter.2
      simp [Declarations.lt_size_of_item? hitem', hitem', htable, hkept top]
    · exact fun owner howner => hkept owner (by simp [howner])

/-- No item is shown twice. -/
theorem nodup_items_shown {c : Catalog} (hd : c.declarations.WellFormed) :
    (items c.shown).Nodup := by
  rw [items_shown]
  have htops : c.tops.Nodup := List.nodup_range.filter _
  exact nodup_flatMap_itemsBelow hd htops (fun _ => lineage_of_mem_tops)
    fun id _ => nodup_itemsBelow hd id

end Catalog

end LuaGloss

import LuaGloss.Proofs.Docs.RefId

/-!
# Invariants of the documentation

Four facts hold of the documentation throughout a run: the block of an item
documents that item, footnotes and groups know the blocks that belong to them,
and no reference id is given out twice.  Each operation keeps them; an operation
that attaches a block to an item does so if the block documents nothing yet.
-/

namespace LuaGloss

namespace Docs

/-- Whatever block an item has, that block has this item.  There are `n`
items. -/
structure Attached (n : Nat) (d : Docs) : Prop where
  item : ∀ item block, d.blockOf? item = some block →
    ∃ links, d.links? block = some links ∧ links.item = some item
  bound : ∀ item block, d.blockOf? item = some block → item < n

def Noted (d : Docs) : Prop :=
  ∀ id links, d.links? id = some links → ∀ note ∈ links.footnotes,
    ∃ links', d.links? note = some links' ∧ links'.kind = .footnote id

/-- Every group has a block of its own and contains items that there are. -/
structure Grouped (n : Nat) (d : Docs) : Prop where
  block : ∀ id group, d.groupLinks? id = some group →
    ∃ links, d.links? group.block = some links ∧ links.kind = .group id
  items : ∀ id group, d.groupLinks? id = some group →
    ∀ item ∈ group.items, item < n
  listed : ∀ id ∈ d.listedGroups, (d.groupLinks? id).isSome
  nodup : d.listedGroups.Nodup

/-- Reference ids are in use, and each belongs to one block. -/
structure Numbered (d : Docs) : Prop where
  used : ∀ id links refId, d.links? id = some links → links.refId = some refId →
    isUsed d.usedIds refId = true ∧ Xml.isId refId = true ∧ refId ≠ globalId
  distinct : ∀ id id' links links' refId, d.links? id = some links →
    d.links? id' = some links' →
    links.refId = some refId → links'.refId = some refId → id = id'
  global : isUsed d.usedIds globalId = true

structure Linked (n : Nat) (d : Docs) : Prop where
  attached : d.Attached n
  noted : d.Noted
  grouped : d.Grouped n
  numbered : d.Numbered

theorem Linked.empty (language : Bytes) (n : Nat) :
    Linked n { empty with language } := by
  constructor
  · constructor <;> intros <;> simp_all [blockOf?, Docs.empty]
  · intro id links h
    simp [links?, block?, Docs.empty] at h
  · constructor
    · intro id group h
      simp [groupLinks?, group?, Docs.empty] at h
    · intro id group h
      simp [groupLinks?, group?, Docs.empty] at h
    · simp [Docs.empty]
    · simp [Docs.empty]
  · constructor
    · intro id links refId h
      simp [links?, block?, Docs.empty] at h
    · intro id id' links links' refId h
      simp [links?, block?, Docs.empty] at h
    · simp [Docs.empty, isUsed]

/-! ## More blocks -/

/-- The documentation `d'` has the blocks of `d` with what they document and
their ids, and perhaps more blocks. -/
structure Extends (d d' : Docs) : Prop where
  attached : d'.attached = d.attached
  usedIds : d'.usedIds = d.usedIds
  old : ∀ id links, d.links? id = some links →
    ∃ links', d'.links? id = some links' ∧ links'.kind = links.kind ∧
      links'.item = links.item ∧
      links'.refId = links.refId
  new : ∀ id links', d'.links? id = some links' → links'.refId ≠ none →
    ∃ links, d.links? id = some links

theorem Extends.attachedTo {d d' : Docs} (h : d.Extends d') {n : Nat}
    (hd : d.Attached n) : d'.Attached n where
  item item block hblock := by
    unfold blockOf? at hblock
    rw [h.attached] at hblock
    obtain ⟨links, hlinks, hitem⟩ := hd.item item block hblock
    obtain ⟨links', hlinks', -, heq, -⟩ := h.old block links hlinks
    exact ⟨links', hlinks', heq.trans hitem⟩
  bound item block hblock := by
    unfold blockOf? at hblock
    rw [h.attached] at hblock
    exact hd.bound item block hblock

theorem Extends.refId_of_some {d d' : Docs} (h : d.Extends d') {id : BlockId}
    {links' : BlockLinks} {refId : Bytes} (hlinks : d'.links? id = some links')
    (hrefId : links'.refId = some refId) :
    ∃ links, d.links? id = some links ∧ links.refId = some refId := by
  obtain ⟨links, hold⟩ := h.new id links' hlinks (by simp [hrefId])
  obtain ⟨links'', hlinks'', -, -, heq⟩ := h.old id links hold
  rw [hlinks] at hlinks''
  obtain rfl := Option.some.inj hlinks''
  exact ⟨links, hold, heq.symm.trans hrefId⟩

theorem Extends.numbered {d d' : Docs} (h : d.Extends d') (hd : d.Numbered) :
    d'.Numbered where
  used id links refId hlinks hrefId := by
    obtain ⟨before, hbefore, heq⟩ := h.refId_of_some hlinks hrefId
    rw [h.usedIds]
    exact hd.used id before refId hbefore heq
  distinct id id' links links' refId hlinks hlinks' hrefId hrefId' := by
    obtain ⟨before, hbefore, heq⟩ := h.refId_of_some hlinks hrefId
    obtain ⟨before', hbefore', heq'⟩ := h.refId_of_some hlinks' hrefId'
    exact hd.distinct id id' before before' refId hbefore hbefore' heq heq'
  global := by
    rw [h.usedIds]
    exact hd.global

theorem Agrees.extends {d d' : Docs} (h : d.Agrees d') : d.Extends d' where
  attached := h.attached
  usedIds := h.usedIds
  old id links hlinks := ⟨links, (h.blocks id).trans hlinks, rfl, rfl, rfl⟩
  new id links hlinks _ := ⟨links, (h.blocks id).symm.trans hlinks⟩

theorem extends_addBlock (d : Docs) (file : Bytes) (pos : Pos) :
    d.Extends (d.addBlock file pos) where
  attached := rfl
  usedIds := rfl
  old id links hlinks := by
    rw [links?_addBlock, if_neg (Nat.ne_of_lt (lt_size_of_links? hlinks))]
    exact ⟨links, hlinks, rfl, rfl, rfl⟩
  new id links hlinks hrefId := by
    rw [links?_addBlock] at hlinks
    split at hlinks
    · rw [← Option.some.inj hlinks] at hrefId
      simp at hrefId
    · exact ⟨links, hlinks⟩

theorem extends_addFootnote {d : Docs} {parent : BlockId}
    (hparent : parent < d.blocks.size) : d.Extends (d.addFootnote parent) where
  attached := by
    unfold addFootnote
    split <;> rfl
  usedIds := by
    unfold addFootnote
    split <;> rfl
  old id links hlinks := by
    rw [links?_addFootnote hparent,
      if_neg (Nat.ne_of_lt (lt_size_of_links? hlinks)), hlinks]
    split
    · exact ⟨_, rfl, rfl, rfl, rfl⟩
    · exact ⟨_, rfl, rfl, rfl, rfl⟩
  new id links hlinks hrefId := by
    rw [links?_addFootnote hparent] at hlinks
    split at hlinks
    · rw [← Option.some.inj hlinks] at hrefId
      simp at hrefId
    · split at hlinks
      · obtain ⟨before, hbefore, -⟩ := Option.map_eq_some_iff.1 hlinks
        exact ⟨before, hbefore⟩
      · exact ⟨links, hlinks⟩

theorem extends_getGroup {d : Docs} {name : Bytes} (h : d.findGroup? name = none) :
    d.Extends (d.getGroup name).2 where
  attached := by
    unfold getGroup
    rw [h]
  usedIds := by
    unfold getGroup
    rw [h]
  old id links hlinks := by
    rw [links?_getGroup h, if_neg (Nat.ne_of_lt (lt_size_of_links? hlinks))]
    exact ⟨links, hlinks, rfl, rfl, rfl⟩
  new id links hlinks hrefId := by
    rw [links?_getGroup h] at hlinks
    split at hlinks
    · rw [← Option.some.inj hlinks] at hrefId
      simp at hrefId
    · exact ⟨links, hlinks⟩

theorem extends_addGroupItem (d : Docs) (group : GroupId) (item : ItemId) :
    d.Extends (d.addGroupItem group item) :=
  ⟨rfl, rfl, fun _ links h => ⟨links, h, rfl, rfl, rfl⟩,
    fun _ links h _ => ⟨links, h⟩⟩

def KeepsKinds (d d' : Docs) : Prop :=
  ∀ id links, d.links? id = some links → ∃ links', d'.links? id = some links' ∧
  links'.kind = links.kind

theorem Extends.keepsKinds {d d' : Docs} (h : d.Extends d') : d.KeepsKinds d' := by
  intro id links hlinks
  obtain ⟨links', hlinks', hkind, -, -⟩ := h.old id links hlinks
  exact ⟨links', hlinks', hkind⟩

theorem KeepsKinds.noted {d d' : Docs} (h : d.KeepsKinds d') (hd : d.Noted)
    (hnotes : ∀ id links', d'.links? id = some links' → ∀ note ∈ links'.footnotes,
      (∃ links, d.links? id = some links ∧ note ∈ links.footnotes) ∨
        ∃ l, d'.links? note = some l ∧ l.kind = .footnote id) : d'.Noted := by
  intro id links' hlinks' note hnote
  rcases hnotes id links' hlinks' note hnote with ⟨links, hlinks, hmem⟩ | hnew
  · obtain ⟨l, hl, hkind⟩ := hd id links hlinks note hmem
    obtain ⟨l', hl', heq⟩ := h note l hl
    exact ⟨l', hl', heq.trans hkind⟩
  · exact hnew

theorem KeepsKinds.grouped {d d' : Docs} (h : d.KeepsKinds d') {n : Nat}
    (hd : d.Grouped n) (hgroups : ∀ id, d'.groupLinks? id = d.groupLinks? id)
    (hlisted : d'.listedGroups.Sublist d.listedGroups) : d'.Grouped n where
  block id group hgroup := by
    rw [hgroups] at hgroup
    obtain ⟨l, hl, hkind⟩ := hd.block id group hgroup
    obtain ⟨l', hl', heq⟩ := h group.block l hl
    exact ⟨l', hl', heq.trans hkind⟩
  items id group hgroup := by
    rw [hgroups] at hgroup
    exact hd.items id group hgroup
  listed id hid := by
    rw [hgroups]
    exact hd.listed id (hlisted.subset hid)
  nodup := hd.nodup.sublist hlisted

/-! ## A fresh id -/

def withRefId (d : Docs) (block : BlockId) (refId : Bytes) : Docs :=
  d.modifyBlock block fun b => { b with refId := some refId }

namespace Fresh

variable {d d' : Docs} {name refId : Bytes} (hfresh : d.Fresh name refId d')
  (block : BlockId)

include hfresh

theorem links?_withRefId (id : BlockId) :
    (d'.withRefId block refId).links? id =
      if id = block then
        (d.links? id).map fun l => { l with refId := some refId }
        else d.links? id := by
  have hrest : d'.links? id = d.links? id := by
    rw [hfresh.rest]
    rfl
  unfold withRefId
  rw [links?_giveRefId, hrest]

theorem withRefId_kept {id : BlockId} {links : BlockLinks}
    (h : d.links? id = some links) :
    ∃ links', (d'.withRefId block refId).links? id = some links' ∧
      links'.kind = links.kind ∧
      links'.item = links.item := by
  rw [hfresh.links?_withRefId, h]
  split
  · exact ⟨_, rfl, rfl, rfl⟩
  · exact ⟨_, rfl, rfl, rfl⟩

theorem withRefId_cases {id : BlockId} {links' : BlockLinks}
    (h : (d'.withRefId block refId).links? id = some links') :
    ∃ links, d.links? id = some links ∧ links'.footnotes = links.footnotes ∧
      (id = block ∧ links'.refId = some refId ∨ links'.refId = links.refId) := by
  rw [hfresh.links?_withRefId] at h
  split at h
  next hid =>
    obtain ⟨links, hlinks, rfl⟩ := Option.map_eq_some_iff.1 h
    exact ⟨links, hlinks, rfl, .inl ⟨hid, rfl⟩⟩
  next => exact ⟨links', h, rfl, .inr rfl⟩

theorem refId_ne (hd : d.Numbered) {id : BlockId} {links : BlockLinks}
    (h : d.links? id = some links) : links.refId ≠ some refId := by
  intro heq
  have hused := (hd.used id links refId h heq).1
  simp [hfresh.free] at hused

theorem distinct_withRefId (hd : d.Numbered) {id id' : BlockId}
    {l l' : BlockLinks} {given : Bytes}
    (hid : (d'.withRefId block refId).links? id = some l)
    (hid' : (d'.withRefId block refId).links? id' = some l')
    (hgiven : l.refId = some given) (hgiven' : l'.refId = some given) :
    id = id' := by
  obtain ⟨before, hbefore, -, hcases⟩ := hfresh.withRefId_cases block hid
  obtain ⟨before', hbefore', -, hcases'⟩ := hfresh.withRefId_cases block hid'
  rcases hcases with ⟨hblock, heq⟩ | heq
  · rcases hcases' with ⟨hblock', -⟩ | heq'
    · exact hblock.trans hblock'.symm
    · have hold := heq'.symm.trans hgiven'
      rw [← hgiven, heq] at hold
      exact (hfresh.refId_ne hd hbefore' hold).elim
  · rcases hcases' with ⟨-, heq'⟩ | heq'
    · have hold := heq.symm.trans hgiven
      rw [← hgiven', heq'] at hold
      exact (hfresh.refId_ne hd hbefore hold).elim
    · exact hd.distinct id id' before before' given hbefore hbefore'
        (heq.symm.trans hgiven) (heq'.symm.trans hgiven')

theorem numbered (hname : Xml.isId name = true) (hd : d.Numbered) :
    (d'.withRefId block refId).Numbered where
  used id links given hlinks hgiven := by
    change isUsed d'.usedIds given = true ∧ _
    obtain ⟨before, hbefore, -, hcases⟩ := hfresh.withRefId_cases block hlinks
    rw [hfresh.used]
    rcases hcases with ⟨-, heq⟩ | heq
    · obtain rfl : refId = given := Option.some.inj (heq.symm.trans hgiven)
      refine ⟨by simp, hfresh.isId hname, ?_⟩
      rintro rfl
      have hfree := hfresh.free
      simp [hd.global] at hfree
    · obtain ⟨hused, hrest⟩ :=
        hd.used id before given hbefore (heq.symm.trans hgiven)
      exact ⟨by simp [hused], hrest⟩
  distinct _ _ _ _ _ hid hid' hgiven hgiven' :=
    hfresh.distinct_withRefId block hd hid hid' hgiven hgiven'
  global := by
    change isUsed d'.usedIds globalId = true
    rw [hfresh.used]
    simp [hd.global]

end Fresh

/-! ## The operations -/

namespace Linked

variable {n : Nat} {d : Docs} (hd : d.Linked n)

include hd

theorem mono {m : Nat} (hle : n ≤ m) : d.Linked m where
  attached :=
    ⟨hd.attached.item, fun item block h =>
      Nat.lt_of_lt_of_le (hd.attached.bound item block h) hle⟩
  noted := hd.noted
  grouped :=
    ⟨hd.grouped.block, fun id group h item hitem =>
      Nat.lt_of_lt_of_le (hd.grouped.items id group h item hitem) hle,
      hd.grouped.listed, hd.grouped.nodup⟩
  numbered := hd.numbered

theorem agrees {d' : Docs} (h : d.Agrees d') : d'.Linked n where
  attached := h.extends.attachedTo hd.attached
  noted := by
    apply h.extends.keepsKinds.noted hd.noted
    intro id links hlinks note hnote
    exact .inl ⟨links, (h.blocks id).symm.trans hlinks, hnote⟩
  grouped := h.extends.keepsKinds.grouped hd.grouped h.groups h.listedGroups
  numbered := h.extends.numbered hd.numbered

theorem addBlock (file : Bytes) (pos : Pos) : (d.addBlock file pos).Linked n where
  attached := (d.extends_addBlock file pos).attachedTo hd.attached
  noted := by
    apply (d.extends_addBlock file pos).keepsKinds.noted hd.noted
    intro id links hlinks note hnote
    rw [links?_addBlock] at hlinks
    split at hlinks
    · rw [← Option.some.inj hlinks] at hnote
      simp at hnote
    · exact .inl ⟨links, hlinks, hnote⟩
  grouped :=
    (d.extends_addBlock file pos).keepsKinds.grouped hd.grouped (fun _ =>
      rfl) (.refl _)
  numbered := (d.extends_addBlock file pos).numbered hd.numbered

theorem addFootnote (parent : BlockId) : (d.addFootnote parent).Linked n := by
  by_cases hparent : parent < d.blocks.size
  · have hgroups : (d.addFootnote parent).groups = d.groups := by
      unfold Docs.addFootnote
      split <;> rfl
    have hlisted : (d.addFootnote parent).listedGroups = d.listedGroups := by
      unfold Docs.addFootnote
      split <;> rfl
    refine ⟨(extends_addFootnote hparent).attachedTo hd.attached, ?_, ?_,
      (extends_addFootnote hparent).numbered hd.numbered⟩
    · apply (extends_addFootnote hparent).keepsKinds.noted hd.noted
      intro id links hlinks note hnote
      rw [links?_addFootnote hparent] at hlinks
      split at hlinks
      · rw [← Option.some.inj hlinks] at hnote
        simp at hnote
      · split at hlinks
        next hid =>
          obtain ⟨before, hbefore, rfl⟩ := Option.map_eq_some_iff.1 hlinks
          rcases List.mem_append.1 hnote with hold | hnew
          · exact .inl ⟨before, hbefore, hold⟩
          · right
            rw [List.mem_singleton.1 hnew, links?_addFootnote hparent,
              if_pos rfl, hid]
            exact ⟨_, rfl, rfl⟩
        next => exact .inl ⟨links, hlinks, hnote⟩
    · apply (extends_addFootnote hparent).keepsKinds.grouped hd.grouped
      · intro id
        unfold groupLinks? group?
        rw [hgroups]
      · rw [hlisted]
  · have hnone : d.block? parent = none := by simpa [block?] using hparent
    unfold Docs.addFootnote
    rw [hnone]
    exact hd

theorem getGroup (name : Bytes) : (d.getGroup name).2.Linked n := by
  cases hfind : d.findGroup? name with
  | some id =>
      rw [getGroup_of_some hfind]
      exact hd
  | none =>
      have hextends := extends_getGroup hfind
      have hlisted : (d.getGroup name).2.listedGroups = d.listedGroups ++
          [d.groups.size] := by
        simp [Docs.getGroup, hfind]
      refine ⟨hextends.attachedTo hd.attached, ?_, ?_,
        hextends.numbered hd.numbered⟩
      · apply hextends.keepsKinds.noted hd.noted
        intro id links hlinks note hnote
        rw [links?_getGroup hfind] at hlinks
        split at hlinks
        · rw [← Option.some.inj hlinks] at hnote
          simp at hnote
        · exact .inl ⟨links, hlinks, hnote⟩
      · constructor
        · intro id group hgroup
          rw [groupLinks?_getGroup hfind] at hgroup
          split at hgroup
          next hid =>
            rw [← Option.some.inj hgroup, links?_getGroup hfind, if_pos rfl, hid]
            exact ⟨_, rfl, rfl⟩
          next =>
            obtain ⟨l, hl, hkind⟩ := hd.grouped.block id group hgroup
            obtain ⟨l', hl', heq, -, -⟩ := hextends.old group.block l hl
            exact ⟨l', hl', heq.trans hkind⟩
        · intro id group hgroup item hitem
          rw [groupLinks?_getGroup hfind] at hgroup
          split at hgroup
          · rw [← Option.some.inj hgroup] at hitem
            simp at hitem
          · exact hd.grouped.items id group hgroup item hitem
        · intro id hid
          rw [groupLinks?_getGroup hfind]
          rw [hlisted] at hid
          rcases List.mem_append.1 hid with hold | hnew
          · split
            · rfl
            · exact hd.grouped.listed id hold
          · rw [List.mem_singleton.1 hnew, if_pos rfl]
            rfl
        · rw [hlisted, List.nodup_append]
          refine ⟨hd.grouped.nodup, List.nodup_singleton _, ?_⟩
          intro id hid other hother
          have hlt := groupLinks?_isSome.1 (hd.grouped.listed id hid)
          rw [List.mem_singleton.1 hother]
          exact Nat.ne_of_lt hlt

theorem addGroupItem (group : GroupId) {item : ItemId} (hitem : item < n) :
    (d.addGroupItem group item).Linked n where
  attached := (d.extends_addGroupItem group item).attachedTo hd.attached
  noted := hd.noted
  numbered := (d.extends_addGroupItem group item).numbered hd.numbered
  grouped := by
    constructor
    · intro id links hlinks
      rw [groupLinks?_addGroupItem] at hlinks
      split at hlinks
      · obtain ⟨before, hbefore, rfl⟩ := Option.map_eq_some_iff.1 hlinks
        have hblock := hd.grouped.block id before hbefore
        split <;> exact hblock
      · exact hd.grouped.block id links hlinks
    · intro id links hlinks other hother
      rw [groupLinks?_addGroupItem] at hlinks
      split at hlinks
      · obtain ⟨before, hbefore, rfl⟩ := Option.map_eq_some_iff.1 hlinks
        split at hother
        · exact hd.grouped.items id before hbefore other hother
        · rcases List.mem_append.1 hother with hold | hnew
          · exact hd.grouped.items id before hbefore other hold
          · rw [List.mem_singleton.1 hnew]
            exact hitem
      · exact hd.grouped.items id links hlinks other hother
    · intro id hid
      have hold := hd.grouped.listed id hid
      rw [groupLinks?_addGroupItem]
      split
      · simpa using hold
      · exact hold
    · exact hd.grouped.nodup

theorem attach {item : ItemId} {block : BlockId} {links : BlockLinks}
    (hblock : d.links? block = some links) (hfree : links.item = none)
    (hitem : item < n) : (d.attach item block).Linked n := by
  have hlinks (id : BlockId) (links' : BlockLinks)
      (h : (d.attach item block).links? id = some links') :
      ∃ before, d.links? id = some before ∧ links'.kind = before.kind ∧
        links'.footnotes = before.footnotes ∧
        links'.refId = before.refId := by
    rw [links?_attach] at h
    split at h
    · obtain ⟨before, hbefore, rfl⟩ := Option.map_eq_some_iff.1 h
      exact ⟨before, hbefore, rfl, rfl, rfl⟩
    · exact ⟨links', h, rfl, rfl, rfl⟩
  have hkinds : d.KeepsKinds (d.attach item block) := by
    intro id before h
    rw [links?_attach, h]
    split
    · exact ⟨_, rfl, rfl⟩
    · exact ⟨_, rfl, rfl⟩
  constructor
  · constructor
    · intro other id hid
      rw [blockOf?_attach] at hid
      rw [links?_attach]
      split at hid
      next hother =>
        obtain rfl := Option.some.inj hid
        rw [if_pos rfl, hblock, hother]
        exact ⟨_, rfl, rfl⟩
      next =>
        obtain ⟨l, hl, hlitem⟩ := hd.attached.item other id hid
        -- The block of another item is not the one that is attached, because
        -- that one documents nothing.
        have hne : id ≠ block := by
          rintro rfl
          rw [hl] at hblock
          rw [Option.some.inj hblock, hfree] at hlitem
          simp at hlitem
        rw [if_neg hne]
        exact ⟨l, hl, hlitem⟩
    · intro other id hid
      rw [blockOf?_attach] at hid
      split at hid
      next hother =>
        rw [hother]
        exact hitem
      next => exact hd.attached.bound other id hid
  · apply hkinds.noted hd.noted
    intro id links' hid note hnote
    obtain ⟨before, hbefore, -, hnotes, -⟩ := hlinks id links' hid
    rw [hnotes] at hnote
    exact .inl ⟨before, hbefore, hnote⟩
  · exact hkinds.grouped hd.grouped (fun _ => rfl) (.refl _)
  · refine ⟨?_, ?_, hd.numbered.global⟩
    · intro id links' refId hid hrefId
      obtain ⟨before, hbefore, -, -, heq⟩ := hlinks id links' hid
      exact hd.numbered.used id before refId hbefore (heq.symm.trans hrefId)
    · intro id id' l l' refId hid hid' hrefId hrefId'
      obtain ⟨before, hbefore, -, -, heq⟩ := hlinks id l hid
      obtain ⟨before', hbefore', -, -, heq'⟩ := hlinks id' l' hid'
      exact hd.numbered.distinct id id' before before' refId hbefore hbefore'
        (heq.symm.trans hrefId)
        (heq'.symm.trans hrefId')

theorem giveRefId {block : BlockId} {name refId : Bytes} {d' : Docs}
    (hfresh : d.Fresh name refId d') (hname : Xml.isId name = true) :
    (d'.withRefId block refId).Linked n := by
  have hblockOf (item : ItemId) : (d'.withRefId block refId).blockOf? item =
      d.blockOf? item := by
    rw [hfresh.rest]
    rfl
  have hkinds : d.KeepsKinds (d'.withRefId block refId) := by
    intro id links h
    obtain ⟨links', h', hkind, -⟩ := hfresh.withRefId_kept block h
    exact ⟨links', h', hkind⟩
  constructor
  · constructor
    · intro item id hid
      rw [hblockOf] at hid
      obtain ⟨links, hlinks, hitem⟩ := hd.attached.item item id hid
      obtain ⟨links', hlinks', -, heq⟩ := hfresh.withRefId_kept block hlinks
      exact ⟨links', hlinks', heq.trans hitem⟩
    · intro item id hid
      rw [hblockOf] at hid
      exact hd.attached.bound item id hid
  · apply hkinds.noted hd.noted
    intro id links' hid note hnote
    obtain ⟨links, hlinks, hnotes, -⟩ := hfresh.withRefId_cases block hid
    rw [hnotes] at hnote
    exact .inl ⟨links, hlinks, hnote⟩
  · apply hkinds.grouped hd.grouped
    · intro id
      rw [hfresh.rest]
      rfl
    · rw [hfresh.rest]
      exact .refl _
  · exact hfresh.numbered block hname hd.numbered

end Linked

end Docs

end LuaGloss

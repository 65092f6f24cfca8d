import LuaGloss.Proofs.Docs.Invariant

/-!
# Which blocks put items into groups

When all sources have been read, every block of an item that belongs to a group
puts the item there.  Among these blocks are some that an item had for a while
and that were replaced later.  They do no harm because they belong to no group:
a block is replaced only if it is empty, and nobody writes into it afterwards.

What matters for this is the seat of each block: its kind, its item and its
group.  The documentation is tidy if the seats are as they should be and nothing
has been put into groups yet.
-/

namespace LuaGloss

/-- The part of a block that decides whether it puts an item into a group. -/
structure BlockSeat where
  kind : BlockKind
  item : Option ItemId
  group : Option GroupId

def Block.seat (b : Block) : BlockSeat := ⟨b.kind, b.item, b.group⟩

namespace Docs

def seat? (d : Docs) (id : BlockId) : Option BlockSeat :=
  (d.block? id).map Block.seat

theorem seat?_of_block? {d : Docs} {id : BlockId} {b : Block}
    (h : d.block? id = some b) : d.seat? id = some b.seat := by
  simp [seat?, h]

theorem seat?_isSome {d : Docs} {id : BlockId} :
    (d.seat? id).isSome ↔ id < d.blocks.size := by
  simp [seat?, block?]

theorem lt_size_of_seat? {d : Docs} {id : BlockId} {seat : BlockSeat}
    (h : d.seat? id = some seat) : id < d.blocks.size :=
  seat?_isSome.1 (by simp [h])

/-! ## What the operations do to seats -/

theorem seat?_modifyBlock (d : Docs) (id other : BlockId) {f : Block → Block}
    {g : BlockSeat → BlockSeat} (hf : ∀ b, (f b).seat = g b.seat) :
    (d.modifyBlock id f).seat? other = if id = other then
      (d.seat? other).map g else d.seat? other := by
  unfold seat?
  rw [block?_modifyBlock]
  split
  · rw [Option.map_map, Option.map_map]
    congr 1
    exact funext hf
  · rfl

theorem seat?_addBlock (d : Docs) (file : Bytes) (pos : Pos) (id : BlockId) :
    (d.addBlock file pos).seat? id = if id = d.blocks.size then
      some ⟨.normal, none, none⟩ else d.seat? id := by
  unfold seat? block? addBlock
  simp only [Array.getElem?_push]
  split <;> rfl

theorem seat?_addFootnote {d : Docs} {parent : BlockId}
    (h : parent < d.blocks.size) (id : BlockId) :
    (d.addFootnote parent).seat? id =
      if id = d.blocks.size then some ⟨.footnote parent, none, none⟩
        else d.seat? id := by
  obtain ⟨b, hb⟩ : ∃ b, d.block? parent = some b :=
    ⟨_, Array.getElem?_eq_getElem h⟩
  unfold addFootnote
  rw [hb]
  unfold seat? block?
  simp only [Array.getElem?_push, Array.size_modify, Array.getElem?_modify]
  split
  · rfl
  · split
    · rw [Option.map_map]
      rfl
    · rfl

theorem seat?_getGroup {d : Docs} {name : Bytes} (h : d.findGroup? name = none)
    (id : BlockId) :
    (d.getGroup name).2.seat? id =
      if id = d.blocks.size then some ⟨.group d.groups.size, none, none⟩
        else d.seat? id := by
  unfold getGroup
  rw [h]
  unfold seat? block?
  simp only [Array.getElem?_push]
  split <;> rfl

theorem seat?_attach (d : Docs) (item : ItemId) (block id : BlockId) :
    (d.attach item block).seat? id =
      if block = id then
        (d.seat? id).map fun seat => { seat with item := some item }
        else d.seat? id :=
  d.seat?_modifyBlock block id fun _ => rfl

/-! ## Changes that leave the seats alone -/

/-- From `d` to `d'` only texts and notices change, and names come into the
queue that stand in the given block. -/
structure Steady (block : BlockId) (d d' : Docs) : Prop where
  seats : ∀ id, d'.seat? id = d.seat? id
  groups : d'.groups = d.groups
  listedBlocks : d'.listedBlocks = d.listedBlocks
  listedGroups : d'.listedGroups = d.listedGroups
  attached : d'.attached = d.attached
  language : d'.language = d.language
  queue : ∀ reference ∈ d'.queue, reference ∈ d.queue ∨ reference.block = block

namespace Steady

variable {block : BlockId} {d d' d'' : Docs}

theorem refl (d : Docs) : Steady block d d :=
  ⟨fun _ => rfl, rfl, rfl, rfl, rfl, rfl, fun _ => .inl⟩

theorem trans (h : Steady block d d') (h' : Steady block d' d'') :
    Steady block d d'' where
  seats id := (h'.seats id).trans (h.seats id)
  groups := h'.groups.trans h.groups
  listedBlocks := h'.listedBlocks.trans h.listedBlocks
  listedGroups := h'.listedGroups.trans h.listedGroups
  attached := h'.attached.trans h.attached
  language := h'.language.trans h.language
  queue reference hreference :=
    (h'.queue reference hreference).elim (h.queue reference) .inr

theorem warn (d : Docs) (file : Bytes) (pos : Pos) (what : Warning) :
    Steady block d (d.warn file pos what) :=
  ⟨fun _ => rfl, rfl, rfl, rfl, rfl, rfl, fun _ => .inl⟩

theorem modifyBlock (d : Docs) (id : BlockId) {f : Block → Block}
    (hf : ∀ b, (f b).seat = b.seat) : Steady block d (d.modifyBlock id f) := by
  refine ⟨fun other => ?_, rfl, rfl, rfl, rfl, rfl, fun _ => .inl⟩
  rw [d.seat?_modifyBlock id other (g := fun seat => seat) hf,
    Option.map_id', ite_self]

theorem enqueue (d : Docs) (reference : Reference) :
    Steady reference.block d (d.enqueue reference) := by
  refine ⟨fun _ => rfl, rfl, rfl, rfl, rfl, rfl, ?_⟩
  intro other hother
  rcases List.mem_append.1 hother with hold | hnew
  · exact .inl hold
  · exact .inr (congrArg Reference.block (List.mem_singleton.1 hnew))

theorem blockOf? (h : Steady block d d') (item : ItemId) :
    d'.blockOf? item = d.blockOf? item := by
  unfold Docs.blockOf?
  rw [h.attached]

theorem group? (h : Steady block d d') (id : GroupId) :
    d'.group? id = d.group? id := by
  unfold Docs.group?
  rw [h.groups]

theorem lt_size (h : Steady block d d') {id : BlockId} :
    id < d'.blocks.size ↔ id < d.blocks.size := by
  rw [← seat?_isSome, ← seat?_isSome, h.seats]

end Steady

/-! ## More blocks and groups -/

/-- From `d` to `d'` no block and no group is lost. -/
structure Grows (d d' : Docs) : Prop where
  size : d.blocks.size ≤ d'.blocks.size
  listedGroups : ∀ group ∈ d.listedGroups, group ∈ d'.listedGroups

namespace Grows

theorem refl (d : Docs) : d.Grows d := ⟨Nat.le_refl _, fun _ h => h⟩

theorem trans {d d' d'' : Docs} (h : d.Grows d') (h' : d'.Grows d'') :
    d.Grows d'' :=
  ⟨Nat.le_trans h.size h'.size, fun group hgroup =>
    h'.listedGroups group (h.listedGroups group hgroup)⟩

theorem steady {block : BlockId} {d d' : Docs} (h : Steady block d d') :
    d.Grows d' := by
  refine ⟨?_, fun group hgroup => h.listedGroups ▸ hgroup⟩
  apply Nat.le_of_not_lt
  intro hlt
  exact Nat.lt_irrefl _ (h.lt_size.2 hlt)

theorem modifyBlock (d : Docs) (id : BlockId) (f : Block → Block) :
    d.Grows (d.modifyBlock id f) :=
  ⟨Nat.le_of_eq Array.size_modify.symm, fun _ h => h⟩

theorem attach (d : Docs) (item : ItemId) (block : BlockId) :
    d.Grows (d.attach item block) :=
  ⟨Nat.le_of_eq Array.size_modify.symm, fun _ h => h⟩

theorem addBlock (d : Docs) (file : Bytes) (pos : Pos) :
    d.Grows (d.addBlock file pos) := by
  refine ⟨?_, fun _ h => h⟩
  simp [Docs.addBlock]

theorem addFootnote (d : Docs) (parent : BlockId) :
    d.Grows (d.addFootnote parent) := by
  unfold Docs.addFootnote
  split
  · exact .refl d
  · exact ⟨by simp, fun _ h => h⟩

theorem getGroup (d : Docs) (name : Bytes) : d.Grows (d.getGroup name).2 := by
  unfold Docs.getGroup
  split
  · exact .refl d
  · exact ⟨by simp, fun _ h => List.mem_append_left _ h⟩

end Grows

theorem mem_listedGroups_getGroup (d : Docs) (name : Bytes) :
    (d.getGroup name).1 ∈ (d.getGroup name).2.listedGroups := by
  unfold getGroup
  split
  next id hid => exact List.mem_of_find?_eq_some hid
  next => simp

/-! ## Tidy documentation -/

/-- A block that documents an item which has another block by now. -/
def IsReplaced (d : Docs) (id : BlockId) : Prop :=
  ∃ b item, d.block? id = some b ∧ b.kind = .normal ∧ b.item = some item ∧
  d.blockOf? item ≠ some id

theorem isReplaced_iff_seat {d : Docs} {id : BlockId} : d.IsReplaced id ↔
    ∃ seat item, d.seat? id = some seat ∧ seat.kind = .normal ∧
    seat.item = some item ∧ d.blockOf? item ≠ some id := by
  constructor
  · rintro ⟨b, item, hb, hrest⟩
    exact ⟨b.seat, item, seat?_of_block? hb, hrest⟩
  · rintro ⟨seat, item, hseat, hrest⟩
    obtain ⟨b, hb, rfl⟩ := Option.map_eq_some_iff.1 hseat
    exact ⟨b, item, hb, hrest⟩

theorem isReplaced_iff_links {d : Docs} {id : BlockId} : d.IsReplaced id ↔
    ∃ links item, d.links? id = some links ∧ links.kind = .normal ∧
      links.item = some item ∧
      d.blockOf? item ≠ some id := by
  constructor
  · rintro ⟨b, item, hb, hrest⟩
    exact ⟨b.links, item, links?_of_block? hb, hrest⟩
  · rintro ⟨links, item, hlinks, hrest⟩
    obtain ⟨b, hb, rfl⟩ := Option.map_eq_some_iff.1 hlinks
    exact ⟨b, item, hb, hrest⟩

def DistinctNames (d : Docs) : Prop :=
  ∀ id id' g g', id ∈ d.listedGroups → id' ∈ d.listedGroups →
    d.group? id = some g → d.group? id' = some g' →
    g.name = g'.name → id = id'

/-- What holds of the documentation until items are put into groups. -/
structure Tidy (d : Docs) : Prop where
  listed : ∀ id, id ∈ d.listedBlocks ↔ ∃ seat, d.seat? id = some seat ∧
    seat.kind = .normal
  grouped : ∀ id seat group, d.seat? id = some seat → seat.group = some group →
    group ∈ d.listedGroups
  replaced : ∀ id seat, d.IsReplaced id → d.seat? id = some seat →
    seat.group = none
  bare : ∀ id g, d.group? id = some g → g.items = [] ∧ g.groups = [] ∧
    g.parent = none ∧ g.isDeleted = false
  named : d.DistinctNames
  queue : ∀ reference ∈ d.queue, reference.block < d.blocks.size

theorem not_isReplaced_of_seat {d : Docs} {id : BlockId} {seat : BlockSeat}
    (h : d.seat? id = some seat)
    (hseat : seat.kind ≠ .normal ∨ seat.item = none) : ¬ d.IsReplaced id := by
  rw [isReplaced_iff_seat]
  rintro ⟨seat', item, hseat', hkind, hitem, -⟩
  obtain rfl := Option.some.inj (h.symm.trans hseat')
  rcases hseat with hother | hnone
  · exact hother hkind
  · simp [hnone] at hitem

theorem Attached.not_isReplaced {n : Nat} {d : Docs} (hd : d.Attached n)
    {item : ItemId} {id : BlockId} (h : d.blockOf? item = some id) :
    ¬ d.IsReplaced id := by
  rw [isReplaced_iff_links]
  rintro ⟨links, item', hlinks, -, hitem', hother⟩
  obtain ⟨links', hlinks', hitem⟩ := hd.item item id h
  obtain rfl := Option.some.inj (hlinks.symm.trans hlinks')
  obtain rfl : item = item' := Option.some.inj (hitem.symm.trans hitem')
  exact hother h

theorem isReplaced_congr {d d' : Docs} {id : BlockId}
    (hlinks : d'.links? id = d.links? id) (hattached : d'.attached = d.attached) :
    d'.IsReplaced id ↔ d.IsReplaced id := by
  have hblock (item : ItemId) : d'.blockOf? item = d.blockOf? item := by
    unfold blockOf?
    rw [hattached]
  simp only [isReplaced_iff_links, hlinks, hblock]

theorem Agrees.isReplaced {d d' : Docs} (h : d.Agrees d') {id : BlockId} :
    d'.IsReplaced id ↔ d.IsReplaced id :=
  isReplaced_congr (h.blocks id) h.attached

theorem Steady.isReplaced {block : BlockId} {d d' : Docs}
    (h : Steady block d d') {id : BlockId} :
    d'.IsReplaced id ↔ d.IsReplaced id := by
  simp only [isReplaced_iff_seat, h.seats, h.blockOf?]

theorem isReplaced_getGroup (d : Docs) (name : Bytes) {id : BlockId}
    (hid : id < d.blocks.size) :
    (d.getGroup name).2.IsReplaced id ↔ d.IsReplaced id := by
  cases hfind : d.findGroup? name with
  | some group => rw [getGroup_of_some hfind]
  | none =>
      apply isReplaced_congr
      · rw [links?_getGroup hfind, if_neg (Nat.ne_of_lt hid)]
      · simp [getGroup, hfind]

namespace Tidy

theorem empty (language : Bytes) : Tidy { empty with language } := by
  constructor <;> intros <;>
    simp_all [seat?, block?, group?, DistinctNames, Docs.empty]

variable {d d' : Docs} (hd : d.Tidy)

include hd

theorem steady {block : BlockId} (h : Steady block d d')
    (hblock : block < d.blocks.size) : d'.Tidy where
  listed id := by
    rw [h.listedBlocks, h.seats]
    exact hd.listed id
  grouped id seat group hseat hgroup := by
    rw [h.seats] at hseat
    rw [h.listedGroups]
    exact hd.grouped id seat group hseat hgroup
  replaced id seat hreplaced hseat := by
    rw [h.seats] at hseat
    exact hd.replaced id seat (h.isReplaced.1 hreplaced) hseat
  bare id g hg := hd.bare id g (h.group? id ▸ hg)
  named id id' g g' hid hid' hg hg' := by
    rw [h.listedGroups] at hid hid'
    rw [h.group?] at hg hg'
    exact hd.named id id' g g' hid hid' hg hg'
  queue reference hreference := by
    rw [h.lt_size]
    rcases h.queue reference hreference with hold | rfl
    · exact hd.queue reference hold
    · exact hblock

theorem note (notice : Notice) : (d.note notice).Tidy :=
  ⟨hd.listed, hd.grouped, hd.replaced, hd.bare, hd.named, hd.queue⟩

theorem warn (file : Bytes) (pos : Pos) (what : Warning) :
    (d.warn file pos what).Tidy :=
  ⟨hd.listed, hd.grouped, hd.replaced, hd.bare, hd.named, hd.queue⟩

theorem of_push {kind : BlockKind}
    (hseats : ∀ id, d'.seat? id = if id = d.blocks.size then
      some ⟨kind, none, none⟩ else d.seat? id)
    (hlisted : ∀ id, id ∈ d'.listedBlocks ↔ id ∈ d.listedBlocks ∨
      id = d.blocks.size ∧ kind = .normal)
    (hattached : d'.attached = d.attached) (hqueue : d'.queue = d.queue)
    (hgroups : ∀ group ∈ d.listedGroups, group ∈ d'.listedGroups)
    (hbare : ∀ id g, d'.group? id = some g → g.items = [] ∧ g.groups = [] ∧
      g.parent = none ∧ g.isDeleted = false)
    (hnamed : d'.DistinctNames) : d'.Tidy where
  listed id := by
    rw [hlisted, hd.listed, hseats]
    split
    next hid =>
      have hnone : d.seat? id = none := by
        cases hseat : d.seat? id with
        | none => rfl
        | some seat => exact absurd hid (Nat.ne_of_lt (lt_size_of_seat? hseat))
      simp [hid ▸ hnone, hid]
    next hid => simp [hid]
  grouped id seat group hseat hgroup := by
    rw [hseats] at hseat
    split at hseat
    · simp [← Option.some.inj hseat] at hgroup
    · exact hgroups group (hd.grouped id seat group hseat hgroup)
  replaced id seat hreplaced hseat := by
    obtain ⟨seat', item, hseat', hkind, hitem, hother⟩ :=
      isReplaced_iff_seat.1 hreplaced
    rw [hseats] at hseat hseat'
    split at hseat
    · simp [← Option.some.inj hseat]
    next hid =>
      rw [if_neg hid] at hseat'
      refine hd.replaced id seat
        (isReplaced_iff_seat.2 ⟨seat', item, hseat', hkind, hitem, ?_⟩) hseat
      unfold blockOf? at hother ⊢
      rwa [← hattached]
  bare := hbare
  named := hnamed
  queue reference hreference := by
    rw [← seat?_isSome, hseats]
    split
    · rfl
    · exact seat?_isSome.2 (hd.queue reference (hqueue ▸ hreference))

theorem addBlock (file : Bytes) (pos : Pos) : (d.addBlock file pos).Tidy := by
  refine hd.of_push (d.seat?_addBlock file pos) ?_ rfl rfl (fun _ h => h)
    hd.bare hd.named
  intro id
  simp [Docs.addBlock]

theorem addFootnote {parent : BlockId} (h : parent < d.blocks.size) :
    (d.addFootnote parent).Tidy := by
  have hseats := seat?_addFootnote h
  unfold Docs.addFootnote at hseats ⊢
  split
  · exact hd
  next b hb =>
    rw [hb] at hseats
    exact hd.of_push hseats (by simp) rfl rfl (fun _ h => h) hd.bare hd.named

theorem getGroup (name : Bytes) : (d.getGroup name).2.Tidy := by
  cases hfind : d.findGroup? name with
  | some id =>
      rw [getGroup_of_some hfind]
      exact hd
  | none =>
      have hother (id : GroupId) (g : Group) (hid : id ∈ d.listedGroups)
          (hg : d.group? id = some g) :
          g.name ≠ name := by
        have hnone := List.find?_eq_none.1 hfind id hid
        simpa [hg] using hnone
      have hseats := seat?_getGroup hfind
      unfold Docs.getGroup at hseats ⊢
      rw [hfind] at hseats ⊢
      have hgroup (id : GroupId) (g : Group) (hid : id ∈ d.listedGroups ++
          [d.groups.size])
          (hg : (d.groups.push { name, block := d.blocks.size })[id]? = some g) :
          id = d.groups.size ∧ g.name = name ∨ id ∈ d.listedGroups ∧
          d.group? id = some g := by
        rw [Array.getElem?_push] at hg
        split at hg
        next hnew => exact .inl ⟨hnew, by rw [← Option.some.inj hg]⟩
        next hold =>
          rcases List.mem_append.1 hid with hlisted | hnew
          · exact .inr ⟨hlisted, hg⟩
          · exact absurd (List.mem_singleton.1 hnew) hold
      refine hd.of_push hseats (by simp) rfl rfl (fun _ h =>
        List.mem_append_left _ h) ?_ ?_
      · intro id g hg
        simp only [group?, Array.getElem?_push] at hg
        split at hg
        · simp [← Option.some.inj hg]
        · exact hd.bare id g hg
      · intro id id' g g' hid hid' hg hg' hname
        rcases hgroup id g hid hg with ⟨rfl, hnew⟩ | ⟨hlisted, hold⟩
        · rcases hgroup id' g' hid' hg' with ⟨rfl, -⟩ | ⟨hlisted', hold'⟩
          · rfl
          · exact (hother id' g' hlisted' hold' (hname.symm.trans hnew)).elim
        · rcases hgroup id' g' hid' hg' with ⟨rfl, hnew'⟩ | ⟨hlisted', hold'⟩
          · exact (hother id g hlisted hold (hname.trans hnew')).elim
          · exact hd.named id id' g g' hlisted hlisted' hold hold' hname

theorem reseat {block : BlockId} {f : Block → Block} {g : BlockSeat → BlockSeat}
    (hf : ∀ b, (f b).seat = g b.seat)
    (hkind : ∀ seat, (g seat).kind = seat.kind)
    (hgroup : ∀ seat group, d.seat? block = some seat →
      (g seat).group = some group → group ∈ d.listedGroups)
    (hseats : ∀ id, d'.seat? id = (d.modifyBlock block f).seat? id)
    (hreplaced : ∀ id seat, d'.IsReplaced id → d'.seat? id = some seat →
      seat.group = none)
    (hrest : d' = { d with blocks := d'.blocks, attached := d'.attached }) :
    d'.Tidy := by
  have hseat (id : BlockId) : d'.seat? id = if block = id then
      (d.seat? id).map g else d.seat? id :=
    (hseats id).trans (d.seat?_modifyBlock block id hf)
  have hsize (id : BlockId) : id < d'.blocks.size ↔ id < d.blocks.size := by
    rw [← seat?_isSome, ← seat?_isSome, hseat]
    split <;> simp
  constructor
  · intro id
    have hlisted : d'.listedBlocks = d.listedBlocks := by rw [hrest]
    rw [hlisted, hd.listed, hseat]
    split
    next => simp [hkind]
    next => rfl
  · intro id seat group hid hgroup'
    have hlisted : d'.listedGroups = d.listedGroups := by rw [hrest]
    rw [hlisted]
    rw [hseat] at hid
    split at hid
    next heq =>
      obtain ⟨before, hbefore, rfl⟩ := Option.map_eq_some_iff.1 hid
      exact hgroup before group (heq ▸ hbefore) hgroup'
    next => exact hd.grouped id seat group hid hgroup'
  · exact hreplaced
  · rw [hrest]
    exact hd.bare
  · rw [hrest]
    exact hd.named
  · intro reference hreference
    rw [hrest] at hreference
    exact (hsize _).2 (hd.queue reference hreference)

/-- An item gets another block in place of one that belongs to no group. -/
theorem attach {item : ItemId} {block : BlockId}
    (hold : ∀ old seat, d.blockOf? item = some old → d.seat? old = some seat →
      seat.group = none) :
    (d.attach item block).Tidy := by
  refine hd.reseat (f := fun b => { b with item := some item })
    (g := fun seat => { seat with item := some item })
    (fun _ => rfl) (fun _ => rfl) (fun seat group =>
      hd.grouped block seat group) (fun _ => rfl) ?_ rfl
  intro id seat' hreplaced hid'
  obtain ⟨seat'', x, hid, hkind, hx, hother⟩ := isReplaced_iff_seat.1 hreplaced
  obtain rfl := Option.some.inj (hid.symm.trans hid')
  rw [blockOf?_attach] at hother
  rw [seat?_attach] at hid
  split at hid
  next heq =>
    -- The block itself is the one that its item has now.
    obtain ⟨before, -, rfl⟩ := Option.map_eq_some_iff.1 hid
    obtain rfl : item = x := Option.some.inj hx
    simp [heq] at hother
  next =>
    by_cases hthis : x = item
    · subst hthis
      by_cases hcurrent : d.blockOf? x = some id
      · exact hold id seat'' hcurrent hid
      · exact hd.replaced id seat''
          (isReplaced_iff_seat.2 ⟨seat'', x, hid, hkind, hx, hcurrent⟩) hid
    · rw [if_neg hthis] at hother
      exact hd.replaced id seat''
        (isReplaced_iff_seat.2 ⟨seat'', x, hid, hkind, hx, hother⟩) hid

theorem setGroup {block : BlockId} {f : Block → Block}
    {g : Option GroupId → Option GroupId}
    (hf : ∀ b, (f b).seat = { b.seat with group := g b.group })
    (hgroup : ∀ before group, g before = some group → before = some group ∨
      group ∈ d.listedGroups)
    (hblock : ¬ d.IsReplaced block) : (d.modifyBlock block f).Tidy := by
  refine hd.reseat (g := fun seat => { seat with group := g seat.group }) hf
    (fun _ => rfl) ?_ (fun _ => rfl) ?_ rfl
  · intro seat group hseat hnew
    rcases hgroup seat.group group hnew with hold | hlisted
    · exact hd.grouped block seat group hseat hold
    · exact hlisted
  · intro id seat' hreplaced hid'
    obtain ⟨seat'', x, hid, hkind, hx, hother⟩ := isReplaced_iff_seat.1 hreplaced
    obtain rfl := Option.some.inj (hid.symm.trans hid')
    rw [d.seat?_modifyBlock block id (g := fun seat =>
      { seat with group := g seat.group }) hf] at hid
    split at hid
    next heq =>
      obtain ⟨before, hbefore, rfl⟩ := Option.map_eq_some_iff.1 hid
      exact (hblock (heq ▸ isReplaced_iff_seat.2 ⟨before, x, hbefore, hkind, hx,
        hother⟩)).elim
    next =>
      exact hd.replaced id seat''
        (isReplaced_iff_seat.2 ⟨seat'', x, hid, hkind, hx, hother⟩) hid

end Tidy

end Docs

end LuaGloss

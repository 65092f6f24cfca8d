import LuaGloss.Proofs.Docs.Links

/-!
# References of blocks

A block lists the names that its comments refer to.  A name that meant something
when it was read is bound to an item; any other waits in the queue, together
with its place in the list.

Most operations are quiet: they neither touch these lists nor the names that
wait for one of them.  Those that do not are `Catalog.addSeeAlso`, which adds a
name, and `Catalog.resolve`, which binds the names in the queue in the end.
-/

namespace LuaGloss

namespace Docs

def seeAlso (d : Docs) (block : BlockId) : List SeeAlso :=
  ((d.block? block).map (·.seeAlso)).getD []

def awaited (d : Docs) : List Reference := d.queue.filter (·.entry.isSome)

/-- Blocks of items and of groups exist. -/
structure Closed (d : Docs) : Prop where
  attached : ∀ item block, d.blockOf? item = some block → block < d.blocks.size
  groups : ∀ id g, d.group? id = some g → g.block < d.blocks.size

theorem seeAlso_of_block? {d : Docs} {block : BlockId} {b : Block}
    (h : d.block? block = some b) : d.seeAlso block = b.seeAlso := by
  simp [seeAlso, h]

theorem seeAlso_of_push {d d' : Docs} {b : Block}
    (h : d'.blocks = d.blocks.push b) (hb : b.seeAlso = []) (block : BlockId) :
    d'.seeAlso block = d.seeAlso block := by
  unfold seeAlso block?
  rw [h, Array.getElem?_push]
  split
  next hnew => simp [hb, hnew]
  next => rfl

theorem seeAlso_modifyBlock (d : Docs) (id : BlockId) {f : Block → Block}
    (hf : ∀ b, (f b).seeAlso = b.seeAlso) (block : BlockId) :
    (d.modifyBlock id f).seeAlso block = d.seeAlso block := by
  unfold seeAlso
  rw [block?_modifyBlock]
  split
  · rw [Option.map_map]
    congr 2
    exact funext hf
  · rfl

theorem group?_getGroup (d : Docs) (name : Bytes) :
    ∃ g, (d.getGroup name).2.group? (d.getGroup name).1 = some g := by
  unfold getGroup
  split
  next id hid =>
    have hnamed := List.find?_some hid
    obtain ⟨g, hg, -⟩ := (Option.any_eq_true _ _).1 hnamed
    exact ⟨g, hg⟩
  next => exact ⟨{ name, block := d.blocks.size }, by simp [group?]⟩

/-! ## Quiet operations -/

/-- From `d` to `d'` nothing happens to the references of blocks and to the
names that wait for one of them. -/
structure Quiet (d d' : Docs) : Prop where
  size : d.blocks.size ≤ d'.blocks.size
  seeAlso : ∀ block, d'.seeAlso block = d.seeAlso block
  awaited : d'.awaited = d.awaited
  unresolved : d'.unresolved = d.unresolved
  isFinal : d'.isFinal = d.isFinal
  language : d'.language = d.language
  closed : d.Closed → d'.Closed

namespace Quiet

theorem refl (d : Docs) : d.Quiet d :=
  ⟨Nat.le_refl _, fun _ => rfl, rfl, rfl, rfl, rfl, id⟩

theorem trans {d d' d'' : Docs} (h : d.Quiet d') (h' : d'.Quiet d'') :
    d.Quiet d'' where
  size := Nat.le_trans h.size h'.size
  seeAlso block := (h'.seeAlso block).trans (h.seeAlso block)
  awaited := h'.awaited.trans h.awaited
  unresolved := h'.unresolved.trans h.unresolved
  isFinal := h'.isFinal.trans h.isFinal
  language := h'.language.trans h.language
  closed hd := h'.closed (h.closed hd)

theorem note (d : Docs) (notice : Notice) : d.Quiet (d.note notice) :=
  ⟨Nat.le_refl _, fun _ => rfl, rfl, rfl, rfl, rfl, fun hd =>
    ⟨hd.attached, hd.groups⟩⟩

theorem warn (d : Docs) (file : Bytes) (pos : Pos) (what : Warning) :
    d.Quiet (d.warn file pos what) :=
  ⟨Nat.le_refl _, fun _ => rfl, rfl, rfl, rfl, rfl, fun hd =>
    ⟨hd.attached, hd.groups⟩⟩

theorem enqueue (d : Docs) {reference : Reference} (h : reference.entry = none) :
    d.Quiet (d.enqueue reference) where
  size := Nat.le_refl _
  seeAlso _ := rfl
  awaited := by simp [Docs.awaited, Docs.enqueue, h]
  unresolved := rfl
  isFinal := rfl
  language := rfl
  closed hd := ⟨hd.attached, hd.groups⟩

theorem modifyBlock (d : Docs) (id : BlockId) {f : Block → Block}
    (hf : ∀ b, (f b).seeAlso = b.seeAlso) : d.Quiet (d.modifyBlock id f) where
  size := by simp [Docs.modifyBlock]
  seeAlso := d.seeAlso_modifyBlock id hf
  awaited := rfl
  unresolved := rfl
  isFinal := rfl
  language := rfl
  closed hd := by
    constructor
    · simpa [Docs.modifyBlock, Docs.blockOf?] using hd.attached
    · simpa [Docs.modifyBlock, Docs.group?] using hd.groups

theorem addBlock (d : Docs) (file : Bytes) (pos : Pos) :
    d.Quiet (d.addBlock file pos) where
  size := by simp [Docs.addBlock]
  seeAlso := seeAlso_of_push rfl rfl
  awaited := rfl
  unresolved := rfl
  isFinal := rfl
  language := rfl
  closed hd := by
    constructor
    · intro item block hblock
      simp only [Docs.addBlock, Array.size_push]
      exact Nat.lt_succ_of_lt (hd.attached item block hblock)
    · intro id g hg
      simp only [Docs.addBlock, Array.size_push]
      exact Nat.lt_succ_of_lt (hd.groups id g hg)

theorem addFootnote (d : Docs) (parent : BlockId) :
    d.Quiet (d.addFootnote parent) := by
  unfold Docs.addFootnote
  split
  · exact .refl d
  next b _ =>
    -- The list of footnotes of the parent grows, and then a block is added as
    -- for any comment.
    have hlisted :
        d.Quiet (d.modifyBlock parent fun b =>
          { b with footnotes := b.footnotes ++ [d.blocks.size] }) :=
      .modifyBlock d parent fun _ => rfl
    have hadded := hlisted.trans (.addBlock _ b.file b.pos)
    refine ⟨?_, ?_, rfl, rfl, rfl, rfl, ?_⟩
    · simp
    · intro block
      rw [← hlisted.seeAlso block]
      exact seeAlso_of_push rfl rfl block
    · intro hd
      have hclosed := hadded.closed hd
      constructor
      · simpa [Docs.addBlock, Docs.modifyBlock, Docs.blockOf?]
          using hclosed.attached
      · simpa [Docs.addBlock, Docs.modifyBlock, Docs.group?] using hclosed.groups

theorem getGroup (d : Docs) (name : Bytes) : d.Quiet (d.getGroup name).2 := by
  unfold Docs.getGroup
  split
  · exact .refl d
  · refine ⟨by simp, seeAlso_of_push rfl rfl, rfl, rfl, rfl, rfl, ?_⟩
    intro hd
    constructor
    · intro item block hblock
      simp only [Array.size_push]
      exact Nat.lt_succ_of_lt (hd.attached item block hblock)
    · intro id g hg
      simp only [Docs.group?, Array.getElem?_push] at hg
      simp only [Array.size_push]
      split at hg
      · obtain rfl := Option.some.inj hg
        simp
      · exact Nat.lt_succ_of_lt (hd.groups id g hg)

theorem attach (d : Docs) (item : ItemId) {block : BlockId}
    (h : block < d.blocks.size) : d.Quiet (d.attach item block) := by
  have hmodified :
      d.Quiet (d.modifyBlock block fun b => { b with item := some item }) :=
    .modifyBlock d block fun _ => rfl
  refine ⟨hmodified.size, hmodified.seeAlso, rfl, rfl, rfl, rfl, ?_⟩
  intro hd
  refine ⟨?_, (hmodified.closed hd).groups⟩
  intro other id hid
  rw [blockOf?_attach] at hid
  apply Nat.lt_of_lt_of_le ?_ hmodified.size
  split at hid
  · obtain rfl := Option.some.inj hid
    exact h
  · exact hd.attached other id hid

theorem modifyGroup (d : Docs) (id : GroupId) {f : Group → Group}
    (hf : ∀ g, (f g).block = g.block) : d.Quiet (d.modifyGroup id f) := by
  refine ⟨Nat.le_refl _, fun _ => rfl, rfl, rfl, rfl, rfl, ?_⟩
  intro hd
  refine ⟨hd.attached, ?_⟩
  intro other g hg
  rw [group?_modifyGroup] at hg
  split at hg
  · obtain ⟨before, hbefore, rfl⟩ := Option.map_eq_some_iff.1 hg
    rw [hf]
    exact hd.groups other before hbefore
  · exact hd.groups other g hg

theorem addGroupItem (d : Docs) (group : GroupId) (item : ItemId) :
    d.Quiet (d.addGroupItem group item) := by
  apply modifyGroup
  intro g
  split <;> rfl

theorem isRegrouping : IsRegrouping Quiet where
  refl := refl
  trans := trans
  note := note
  warn := warn
  modifyGroup d id _ hf := modifyGroup d id fun g =>
    congrArg GroupLinks.block (hf g)
  unlist _ _ :=
    ⟨Nat.le_refl _, fun _ => rfl, rfl, rfl, rfl, rfl, fun hd =>
      ⟨hd.attached, hd.groups⟩⟩

end Quiet

/-! ## What references are bound to -/

/-- Every reference is bound to what its name is known to mean, or waits in the
queue, and what waits there is such a reference. -/
structure Refers (known : Bytes → ItemId → Prop) (d : Docs) : Prop where
  entry : ∀ block k see, (d.seeAlso block)[k]? = some see →
    (∃ item, see.item = some item ∧ known see.name item) ∨
      see.item = none ∧ ⟨block, .see, see.name, 0, some k⟩ ∈ d.awaited
  awaited : ∀ reference ∈ d.awaited, ∀ k, reference.entry = some k →
    reference.overload = 0 ∧
    (d.seeAlso reference.block)[k]? = some ⟨reference.name, none⟩

namespace Refers

variable {known known' : Bytes → ItemId → Prop} {d d' : Docs}

theorem quiet (h : d.Refers known) (hquiet : d.Quiet d') : d'.Refers known where
  entry block k see hsee := by
    rw [hquiet.awaited]
    exact h.entry block k see (hquiet.seeAlso block ▸ hsee)
  awaited reference hreference k hk := by
    rw [hquiet.awaited] at hreference
    rw [hquiet.seeAlso]
    exact h.awaited reference hreference k hk

theorem mono (h : d.Refers known)
    (hknown : ∀ name item, known name item → known' name item) :
    d.Refers known' where
  entry block k see hsee := by
    rcases h.entry block k see hsee with ⟨item, hitem, hmeans⟩ | hwaits
    · exact .inl ⟨item, hitem, hknown _ _ hmeans⟩
    · exact .inr hwaits
  awaited := h.awaited

theorem append (h : d.Refers known) {block : BlockId} {see : SeeAlso}
    (hblock : d'.seeAlso block = d.seeAlso block ++ [see])
    (hothers : ∀ other, other ≠ block → d'.seeAlso other = d.seeAlso other)
    (hsee : (∃ item, see.item = some item ∧ known see.name item) ∧
      d'.awaited = d.awaited ∨ see.item = none ∧
      d'.awaited = d.awaited ++
        [⟨block, .see, see.name, 0, some (d.seeAlso block).length⟩]) :
    d'.Refers known := by
  have hmore : ∀ reference ∈ d.awaited, reference ∈ d'.awaited := by
    intro reference hreference
    rcases hsee with ⟨-, hsame⟩ | ⟨-, hadded⟩
    · exact hsame ▸ hreference
    · exact hadded ▸ List.mem_append_left _ hreference
  have hkept (other : BlockId) (k : Nat) (see' : SeeAlso)
      (hold : (d.seeAlso other)[k]? = some see') :
      (d'.seeAlso other)[k]? = some see' := by
    by_cases hother : other = block
    · subst hother
      rw [hblock, List.getElem?_append_left (List.getElem?_eq_some_iff.1 hold).1]
      exact hold
    · rw [hothers other hother]
      exact hold
  constructor
  · intro other k see' hsee'
    have hold (hold : (d.seeAlso other)[k]? = some see') :
        (∃ item, see'.item = some item ∧ known see'.name item) ∨
          see'.item = none ∧ ⟨other, .see, see'.name, 0, some k⟩ ∈ d'.awaited :=
      (h.entry other k see' hold).imp_right fun hwaits =>
        hwaits.imp_right (hmore _)
    by_cases hother : other = block
    · subst hother
      rw [hblock] at hsee'
      rcases Nat.lt_trichotomy k (d.seeAlso other).length with hlt | heq | hgt
      · exact hold (by rwa [List.getElem?_append_left hlt] at hsee')
      · subst heq
        obtain rfl : see = see' := by simpa using hsee'
        rcases hsee with ⟨hbound, -⟩ | ⟨hnone, hadded⟩
        · exact .inl hbound
        · exact .inr ⟨hnone, by simp [hadded]⟩
      · rw [List.getElem?_eq_none (by simp; omega)] at hsee'
        simp at hsee'
    · exact hold (by rwa [hothers other hother] at hsee')
  · intro reference hreference k hk
    have hold (hold : reference ∈ d.awaited) :
        reference.overload = 0 ∧
        (d'.seeAlso reference.block)[k]? = some ⟨reference.name, none⟩ :=
      (h.awaited reference hold k hk).imp_right (hkept reference.block k _)
    rcases hsee with ⟨-, hsame⟩ | ⟨hnone, hadded⟩
    · exact hold (hsame ▸ hreference)
    · rw [hadded] at hreference
      rcases List.mem_append.1 hreference with hin | hnew
      · exact hold hin
      · obtain rfl := List.mem_singleton.1 hnew
        obtain rfl := Option.some.inj hk
        refine ⟨rfl, ?_⟩
        rw [hblock, List.getElem?_concat_length]
        simp [← hnone]

end Refers

end Docs

end LuaGloss

import LuaGloss.Catalog.Grouping
import LuaGloss.Proofs.Catalog.Step
import LuaGloss.Proofs.Docs.References

/-!
# The faces of blocks

What a reader of the documentation sees of a block and its footnotes is decided
by a small part of it: its kind, its footnotes and its two texts.  Most of what
happens to the documentation retains the faces of all blocks.
-/

namespace LuaGloss

/-- The two texts of a block. -/
structure Wording where
  brief : Bytes
  detailed : Bytes
  deriving DecidableEq, Repr

def Wording.empty : Wording := ⟨[], []⟩

/-- Whether a block describes a group. -/
def BlockKind.IsGroup (kind : BlockKind) : Prop := ∃ group, kind = .group group

/-- What footnotes are about in a block: its own footnotes and its wording. -/
structure BlockFace where
  kind : BlockKind
  footnotes : List BlockId
  wording : Wording

def Block.face (b : Block) : BlockFace :=
  ⟨b.kind, b.footnotes, b.brief, b.detailed⟩

namespace Docs

def face? (d : Docs) (id : BlockId) : Option BlockFace :=
  (d.block? id).map Block.face

theorem face?_of_block? {d : Docs} {id : BlockId} {b : Block}
    (h : d.block? id = some b) : d.face? id = some b.face := by
  simp [face?, h]

theorem lt_size_of_face? {d : Docs} {id : BlockId} {face : BlockFace}
    (h : d.face? id = some face) : id < d.blocks.size := by
  obtain ⟨b, hb, -⟩ := Option.map_eq_some_iff.1 h
  exact (Array.getElem?_eq_some_iff.1 hb).1

theorem face?_modifyBlock (d : Docs) (id other : BlockId) {f : Block → Block}
    {g : BlockFace → BlockFace} (hf : ∀ b, (f b).face = g b.face) :
    (d.modifyBlock id f).face? other = if id = other then
      (d.face? other).map g else d.face? other := by
  unfold face?
  rw [block?_modifyBlock]
  split
  · simp [Function.comp_def, hf]
  · rfl

theorem face?_addFootnote {d : Docs} {parent : BlockId} {face : BlockFace}
    (h : d.face? parent = some face) (id : BlockId) :
    (d.addFootnote parent).face? id =
      if id = d.blocks.size then some ⟨.footnote parent, [], .empty⟩
      else if id = parent then
        some { face with footnotes := face.footnotes ++ [d.blocks.size] }
      else d.face? id := by
  obtain ⟨b, hb, rfl⟩ := Option.map_eq_some_iff.1 h
  unfold addFootnote
  rw [hb]
  unfold face? block?
  simp only [Array.getElem?_push, Array.size_modify, Array.getElem?_modify]
  split
  · rfl
  · by_cases hid : parent = id
    · subst hid
      have hget : d.blocks[parent]? = some b := hb
      simp [hget, Block.face]
    · simp [hid, Ne.symm hid]

/-- All blocks are still there with their faces, and a new one has no
footnotes. -/
structure Retains (d d' : Docs) : Prop where
  old : ∀ id face, d.face? id = some face → d'.face? id = some face
  new : ∀ id face, d'.face? id = some face → d.face? id = some face ∨
    face.footnotes = []

namespace Retains

variable {d d' d'' : Docs}

theorem of_blocks (h : d'.blocks = d.blocks) : d.Retains d' := by
  have hface (id : BlockId) : d'.face? id = d.face? id := by
    simp [face?, block?, h]
  constructor
  · intro id face hid
    rw [hface, hid]
  · intro id face hid
    rw [hface] at hid
    exact .inl hid

theorem refl (d : Docs) : d.Retains d := of_blocks rfl

theorem trans (h : d.Retains d') (h' : d'.Retains d'') : d.Retains d'' where
  old id face hid := h'.old id face (h.old id face hid)
  new id face hid := by
    rcases h'.new id face hid with hbefore | hnone
    · exact h.new id face hbefore
    · exact .inr hnone

theorem push {b : Block} (h : d'.blocks = d.blocks.push b)
    (hb : b.footnotes = []) : d.Retains d' where
  old id face hid := by
    obtain ⟨before, hbefore, rfl⟩ := Option.map_eq_some_iff.1 hid
    apply face?_of_block?
    unfold block?
    rw [h, Array.getElem?_push, if_neg (Nat.ne_of_lt (lt_size_of_face? hid))]
    exact hbefore
  new id face hid := by
    unfold face? block? at hid ⊢
    rw [h, Array.getElem?_push] at hid
    split at hid
    · obtain rfl : b.face = face := Option.some.inj hid
      exact .inr hb
    · exact .inl hid

theorem modifyBlock (d : Docs) (id : BlockId) {f : Block → Block}
    (hf : ∀ b, (f b).face = b.face) : d.Retains (d.modifyBlock id f) := by
  have hface (other : BlockId) :
      (d.modifyBlock id f).face? other = d.face? other := by
    rw [face?_modifyBlock (g := fun face => face) d id other hf]
    simp
  constructor
  · intro other face h
    rw [hface, h]
  · intro other face h
    rw [hface] at h
    exact .inl h

theorem addBlock (d : Docs) (file : Bytes) (pos : Pos) :
    d.Retains (d.addBlock file pos) := push rfl rfl

theorem getGroup (d : Docs) (name : Bytes) : d.Retains (d.getGroup name).2 := by
  unfold Docs.getGroup
  split
  · exact .refl d
  · exact push rfl rfl

theorem attach (d : Docs) (item : ItemId) (block : BlockId) :
    d.Retains (d.attach item block) := by
  have hmodified :
      d.Retains (d.modifyBlock block fun b => { b with item := some item }) :=
    .modifyBlock d block fun _ => rfl
  exact hmodified.trans (of_blocks rfl)

variable (c : Catalog)

theorem bindTarget (block : BlockId) (item : ItemId) (name : Bytes) :
    c.docs.Retains (c.bindTarget block item name).docs := by
  unfold Catalog.bindTarget
  split
  · exact .refl _
  · split
    · exact .refl _
    · split
      · exact of_blocks rfl
      · split
        · exact of_blocks rfl
        · exact .attach _ _ _

theorem setTarget (block : BlockId) (command : Command) (name : Bytes)
    (overload : Int) :
    c.docs.Retains (c.setTarget block command name overload).docs := by
  have hmarked :
      c.docs.Retains (c.modifyBlock block fun b =>
        { b with hasTarget := true }).docs :=
    .modifyBlock c.docs block fun _ => rfl
  unfold Catalog.setTarget
  dsimp only
  split
  · exact hmarked.trans (.bindTarget _ _ _ _)
  · exact hmarked.trans (of_blocks rfl)

theorem addSeeAlso (block : BlockId) (name : Bytes) :
    c.docs.Retains (c.addSeeAlso block name).docs := by
  have hadded : c.docs.Retains (c.modifyBlock block fun b =>
      { b with
        seeAlso := b.seeAlso ++ [⟨name, c.declarations.find name⟩] }).docs :=
    .modifyBlock c.docs block fun _ => rfl
  unfold Catalog.addSeeAlso
  dsimp only
  split
  · exact hadded
  · exact hadded.trans (of_blocks rfl)

theorem itemBlock (item : ItemId) : c.docs.Retains (c.itemBlock item).2.docs := by
  rcases c.itemBlock_cases item with ⟨block, -, heq⟩ | ⟨-, file, pos, heq⟩
  · rw [heq]
    exact .refl _
  · rw [heq]
    exact (addBlock c.docs file pos).trans (.attach _ _ _)

end Retains

def HasNotes (d : Docs) (own : BlockId) (kind : BlockKind)
    (notes : List BlockId) : Prop :=
  ∃ wording, d.face? own = some ⟨kind, notes, wording⟩

def IsNote (d : Docs) (own note : BlockId) (wording : Wording) : Prop :=
  ∃ notes, d.face? note = some ⟨.footnote own, notes, wording⟩

namespace Retains

variable {d d' : Docs} (h : d.Retains d')

include h

theorem hasNotes {own : BlockId} {kind : BlockKind} {notes : List BlockId}
    (hown : d.HasNotes own kind notes) : d'.HasNotes own kind notes := by
  obtain ⟨wording, hface⟩ := hown
  exact ⟨wording, h.old own _ hface⟩

theorem isNote {own note : BlockId} {wording : Wording}
    (hnote : d.IsNote own note wording) : d'.IsNote own note wording := by
  obtain ⟨notes, hface⟩ := hnote
  exact ⟨notes, h.old note _ hface⟩

end Retains

theorem hasNotes_addBlock (d : Docs) (file : Bytes) (pos : Pos) :
    (d.addBlock file pos).HasNotes d.blocks.size .normal [] := by
  refine ⟨.empty, face?_of_block? (b := { kind := .normal, file, pos }) ?_⟩
  simp [block?, addBlock]

theorem hasNotes_itemBlock {c : Catalog} (hc : c.Consistent) (item : ItemId) :
    ∃ kind notes,
      (c.itemBlock item).2.docs.HasNotes (c.itemBlock item).1 kind notes := by
  rcases c.itemBlock_cases item with ⟨block, hblock, heq⟩ | ⟨-, file, pos, heq⟩
  · rw [heq]
    obtain ⟨links, hlinks, -⟩ := hc.docs.attached.item item block hblock
    obtain ⟨b, hb, -⟩ := Option.map_eq_some_iff.1 hlinks
    exact ⟨b.kind, b.footnotes, _, face?_of_block? hb⟩
  · rw [heq]
    have hattached :=
      Retains.attach (c.docs.addBlock file pos) item c.docs.blocks.size
    exact ⟨.normal, [], hattached.hasNotes (hasNotes_addBlock c.docs file pos)⟩

end Docs

end LuaGloss

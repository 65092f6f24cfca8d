import LuaGloss.Proofs.Comment.Gist
import LuaGloss.Proofs.Comment.Steps

/-!
# What comments write into blocks

Comments that continue each other are written in stretches: the first one begins
in a block of its own or that of an item, and each of the others in the block of
a group.  However a stretch goes on, the block that it began with gets the
footnote of its gist, with exactly its wording, and no other.  All other blocks
that were there before stay as they are.
-/

namespace LuaGloss

/-! ## Stretches -/

def BlockKind.IsFootnote (kind : BlockKind) : Prop :=
  ∃ parent, kind = .footnote parent

namespace Reading

def docs (s : Reading) : Docs := s.reader.catalog.docs

/-- The gist says where the stretch writes and what it has written into the
first footnote, where `notes` are the footnotes that the block `own` had
before. -/
def Tracks (own : BlockId) (kind : BlockKind) (notes : List BlockId)
    (s : Reading) : Gist → Prop
  | .own => s.place.block = own ∧ s.docs.HasNotes own kind notes
  | .note part wording =>
      s.place.part = part ∧ s.place.block ≠ own ∧
        s.docs.HasNotes own kind (notes ++ [s.place.block]) ∧
        s.docs.IsNote own s.place.block wording
  | .past wording =>
      s.place.block ≠ own ∧ ∃ note, s.place.block ≠ note ∧
        s.docs.HasNotes own kind (notes ++ [note]) ∧ s.docs.IsNote own note wording

theorem face?_write (s : Reading) {change : Wording → Wording}
    {f : Block → Block}
    (hf : ∀ b, (f b).face = { b.face with wording := change b.face.wording })
    (id : BlockId) :
    (s.modifyBlock f).docs.face? id =
      if s.place.block = id then (s.docs.face? id).map fun face =>
        { face with wording := change face.wording }
      else s.docs.face? id :=
  Docs.face?_modifyBlock s.docs s.place.block id hf

theorem face?_write_of_some {s : Reading} {change : Wording → Wording}
    {f : Block → Block}
    (hf : ∀ b, (f b).face = { b.face with wording := change b.face.wording })
    {id : BlockId} {face : BlockFace} (h : s.docs.face? id = some face) :
    ∃ wording, (s.modifyBlock f).docs.face? id = some { face with wording } := by
  rw [s.face?_write hf, h]
  split
  · exact ⟨change face.wording, rfl⟩
  · exact ⟨face.wording, rfl⟩

theorem face?_startFootnote {s : Reading} {parent : BlockFace}
    (h : s.docs.face? s.place.block = some parent) (id : BlockId) :
    s.startFootnote.docs.face? id =
      if id = s.docs.blocks.size then some ⟨.footnote s.place.block, [], .empty⟩
      else if id = s.place.block then
        some { parent with footnotes := parent.footnotes ++ [s.docs.blocks.size] }
      else s.docs.face? id :=
  Docs.face?_addFootnote h id

theorem face?_startFootnote_of_ne {s : Reading} {parent : BlockFace}
    (h : s.docs.face? s.place.block = some parent) {id : BlockId}
    {face : BlockFace} (hid : s.docs.face? id = some face)
    (hne : s.place.block ≠ id) : s.startFootnote.docs.face? id = some face := by
  rw [face?_startFootnote h, if_neg (Nat.ne_of_lt (Docs.lt_size_of_face? hid)),
    if_neg hne.symm, hid]

namespace Tracks

variable {own : BlockId} {kind : BlockKind} {notes : List BlockId} {s : Reading}
  {g : Gist}

theorem write (h : s.Tracks own kind notes g)
    (change : BlockPart → Wording → Wording) {f : Block → Block}
    (hf : ∀ b, (f b).face =
      { b.face with wording := change s.place.part b.face.wording }) :
    (s.modifyBlock f).Tracks own kind notes (g.mapWording change) := by
  have hnotes {notes' : List BlockId} (hown : s.docs.HasNotes own kind notes') :
      (s.modifyBlock f).docs.HasNotes own kind notes' := by
    obtain ⟨wording, hown⟩ := hown
    exact face?_write_of_some hf hown
  cases g with
  | own => exact ⟨h.1, hnotes h.2⟩
  | note part wording =>
      obtain ⟨rfl, hne, hown, more, hnote⟩ := h
      refine ⟨rfl, hne, hnotes hown, more, ?_⟩
      change (s.modifyBlock f).docs.face? s.place.block = _
      rw [s.face?_write hf, if_pos rfl, hnote]
      rfl
  | past wording =>
      obtain ⟨hne, note, hother, hown, more, hnote⟩ := h
      refine ⟨hne, note, hother, hnotes hown, more, ?_⟩
      rw [s.face?_write hf, if_neg hother]
      exact hnote

theorem startFootnote (h : s.Tracks own kind notes g) {parent : BlockFace}
    (hparent : s.docs.face? s.place.block = some parent) :
    s.startFootnote.Tracks own kind notes g.startFootnote := by
  have hnewNe {id : BlockId} {face : BlockFace}
      (hid : s.docs.face? id = some face) : s.docs.blocks.size ≠ id :=
    Nat.ne_of_gt (Docs.lt_size_of_face? hid)
  have hnotes {notes' : List BlockId} (hown : s.docs.HasNotes own kind notes')
      (hne : s.place.block ≠ own) :
      s.docs.blocks.size ≠ own ∧
      s.startFootnote.docs.HasNotes own kind notes' := by
    obtain ⟨wording, hown⟩ := hown
    exact ⟨hnewNe hown, wording, face?_startFootnote_of_ne hparent hown hne⟩
  cases g with
  | own =>
      obtain ⟨hplace, wording, hown⟩ := h
      obtain rfl : parent = ⟨kind, notes, wording⟩ :=
        Option.some.inj (hparent.symm.trans (hplace ▸ hown))
      refine ⟨rfl, hnewNe hown, ⟨wording, ?_⟩, [], ?_⟩
      · rw [face?_startFootnote hparent, if_neg (hnewNe hown).symm,
          if_pos hplace.symm]
        rfl
      · rw [← hplace]
        exact (face?_startFootnote hparent _).trans (if_pos rfl)
  | note part wording =>
      obtain ⟨-, hne, hown, more, hnote⟩ := h
      obtain ⟨hnewOwn, hown⟩ := hnotes hown hne
      refine ⟨hnewOwn, s.place.block, hnewNe hparent, hown,
        more ++ [s.docs.blocks.size], ?_⟩
      obtain rfl := Option.some.inj (hparent.symm.trans hnote)
      rw [face?_startFootnote hparent, if_neg (hnewNe hparent).symm, if_pos rfl]
  | past wording =>
      obtain ⟨hne, note, hother, hown, more, hnote⟩ := h
      obtain ⟨hnewOwn, hown⟩ := hnotes hown hne
      exact ⟨hnewOwn, note, hnewNe hnote, hown, more,
        face?_startFootnote_of_ne hparent hnote hother⟩

theorem retains (h : s.Tracks own kind notes g) {s' : Reading}
    (hblock : s'.place.block = s.place.block)
    (hpart : s'.place.part = s.place.part) (hdocs : s.docs.Retains s'.docs) :
    s'.Tracks own kind notes g := by
  unfold Tracks
  rw [hblock, hpart]
  cases g with
  | own => exact ⟨h.1, hdocs.hasNotes h.2⟩
  | note part wording =>
      obtain ⟨hsame, hne, hnotes, hnote⟩ := h
      exact ⟨hsame, hne, hdocs.hasNotes hnotes, hdocs.isNote hnote⟩
  | past wording =>
      obtain ⟨hne, note, hother, hnotes, hnote⟩ := h
      exact ⟨hne, note, hother, hdocs.hasNotes hnotes, hdocs.isNote hnote⟩

/-- The footnotes that the block has got: at most one, with the wording of the
gist. -/
theorem exists_notes (h : s.Tracks own kind notes g) :
    ∃ new, s.docs.HasNotes own kind (notes ++ new) ∧
      List.Forall₂ (s.docs.IsNote own) new g.wording?.toList := by
  cases g with
  | own =>
      refine ⟨[], ?_, .nil⟩
      rw [List.append_nil]
      exact h.2
  | note part wording =>
      obtain ⟨-, -, hown, hnote⟩ := h
      exact ⟨[s.place.block], hown, .cons hnote .nil⟩
  | past wording =>
      obtain ⟨-, note, -, hown, hnote⟩ := h
      exact ⟨[note], hown, .cons hnote .nil⟩

end Tracks

/-- A stretch that began in the block `own` of the documentation `d` has come to
`s`. -/
structure Follows (d : Docs) (own : BlockId) (kind : BlockKind)
    (notes : List BlockId) (s : Reading) (g : Gist) : Prop where
  home : d.HasNotes own kind notes
  kept : ∀ id face, d.face? id = some face → id ≠ own →
    s.docs.face? id = some face
  fresh : ∀ id face, s.docs.face? id = some face → d.face? id = none →
    ¬face.kind.IsFootnote → face.footnotes = []
  /-- The place is the block itself or a new footnote. -/
  place : s.place.block = own ∨ d.face? s.place.block = none ∧
    ∃ face, s.docs.face? s.place.block = some face ∧ face.kind.IsFootnote
  tracks : s.Tracks own kind notes g

namespace Follows

variable {d : Docs} {own : BlockId} {kind : BlockKind} {notes : List BlockId}
  {s s' : Reading} {g : Gist}

theorem begin (hplace : s.place.block = own)
    (hown : s.docs.HasNotes own kind notes) :
    Follows s.docs own kind notes s .own where
  home := hown
  kept _ _ hface _ := hface
  fresh id face hface hnone _ := by
    rw [hnone] at hface
    simp at hface
  place := .inl hplace
  tracks := ⟨hplace, hown⟩

theorem retain (h : Follows d own kind notes s g)
    (hblock : s'.place.block = s.place.block)
    (hpart : s'.place.part = s.place.part) (hdocs : s.docs.Retains s'.docs) :
    Follows d own kind notes s' g where
  home := h.home
  kept id face hface hne := hdocs.old id face (h.kept id face hface hne)
  fresh id face hface hnone hkind := by
    rcases hdocs.new id face hface with hbefore | hempty
    · exact h.fresh id face hbefore hnone hkind
    · exact hempty
  place := by
    rw [hblock]
    rcases h.place with hown | ⟨hnone, face, hface, hkind⟩
    · exact .inl hown
    · exact .inr ⟨hnone, face, hdocs.old _ face hface, hkind⟩
  tracks := h.tracks.retains hblock hpart hdocs

theorem kind_eq (h : Follows d own kind notes s g) {id : BlockId}
    {face : BlockFace} (hface : d.face? id = some face) :
    ∃ face', s.docs.face? id = some face' ∧ face'.kind = face.kind := by
  by_cases hown : id = own
  · obtain ⟨wording, hhome⟩ := h.home
    obtain ⟨new, ⟨wording', hnew⟩, -⟩ := h.tracks.exists_notes
    rw [hown, hhome] at hface
    rw [hown, ← Option.some.inj hface]
    exact ⟨_, hnew, rfl⟩
  · exact ⟨face, h.kept id face hface hown, rfl⟩

theorem mapCatalog (h : Follows d own kind notes s g) {f : Catalog → Catalog}
    (hdocs : s.docs.Retains (f s.reader.catalog).docs) :
    Follows d own kind notes (s.mapCatalog f) g :=
  h.retain rfl rfl hdocs

theorem modifyBlock (h : Follows d own kind notes s g) {f : Block → Block}
    (hf : ∀ b, (f b).face = b.face) :
    Follows d own kind notes (s.modifyBlock f) g :=
  h.mapCatalog (.modifyBlock _ _ hf)

theorem warn (h : Follows d own kind notes s g) (what : Warning) :
    Follows d own kind notes (s.warn what) g :=
  h.mapCatalog (.of_blocks rfl)

theorem toPart (h : Follows d own kind notes s g) (part : BlockPart) :
    Follows d own kind notes (s.toPart part) (g.toPart part) where
  home := h.home
  kept := h.kept
  fresh := h.fresh
  place := h.place
  tracks := by
    have htracks := h.tracks
    cases g with
    | own => exact htracks
    | note before wording => exact ⟨rfl, htracks.2⟩
    | past wording => exact htracks

theorem place_ne (h : Follows d own kind notes s g) {id : BlockId}
    {face : BlockFace} (hface : d.face? id = some face) (hne : id ≠ own) :
    s.place.block ≠ id := by
  rintro rfl
  rcases h.place with hown | ⟨hnone, -⟩
  · exact hne hown
  · rw [hface] at hnone
    simp at hnone

/-- Something is written at the place; `change` says what becomes of the
wording. -/
theorem write (h : Follows d own kind notes s g)
    (change : BlockPart → Wording → Wording) {f : Block → Block}
    (hf : ∀ b, (f b).face =
      { b.face with wording := change s.place.part b.face.wording }) :
    Follows d own kind notes (s.modifyBlock f) (g.mapWording change) where
  home := h.home
  kept id face hid hne := by
    rw [s.face?_write hf, if_neg (h.place_ne hid hne)]
    exact h.kept id face hid hne
  fresh id face hid hnone hkind := by
    rw [s.face?_write hf] at hid
    split at hid
    · obtain ⟨before, hbefore, rfl⟩ := Option.map_eq_some_iff.1 hid
      exact h.fresh id before hbefore hnone hkind
    · exact h.fresh id face hid hnone hkind
  place := by
    rcases h.place with hown | ⟨hnone, face, hplace, hkind⟩
    · exact .inl hown
    · obtain ⟨wording, hwritten⟩ := face?_write_of_some hf hplace
      exact .inr ⟨hnone, _, hwritten, hkind⟩
  tracks := h.tracks.write change hf

theorem writeIn (h : Follows d own kind notes s g)
    (change : BlockPart → Wording → Wording) {part : BlockPart}
    (hpart : s.place.part = part) {f : Block → Block}
    (hf : ∀ b, (f b).face =
      { b.face with wording := change part b.face.wording }) :
    Follows d own kind notes (s.modifyBlock f) (g.mapWording change) := by
  subst hpart
  exact h.write change hf

theorem mapWording (h : Follows d own kind notes s g)
    {change : BlockPart → Wording → Wording}
    (hsame : ∀ wording, change s.place.part wording = wording) :
    g.mapWording change = g := by
  cases g with
  | own => rfl
  | note part wording =>
      obtain rfl := h.tracks.1
      exact congrArg (Gist.note s.place.part) (hsame wording)
  | past wording => rfl

theorem addText (h : Follows d own kind notes s g) (text : Bytes) :
    Follows d own kind notes (s.addText text) (g.addText text) := by
  unfold Reading.addText Gist.addText
  split
  next hpart => exact h.writeIn _ hpart fun _ => rfl
  next hpart => exact h.writeIn _ hpart fun _ => rfl
  next hpart =>
    rw [h.mapWording fun wording => by rw [hpart]; rfl]
    apply h.mapCatalog
    unfold Reading.docs
    generalize s.reader.catalog = c
    generalize seeAlsoNames text = names
    induction names generalizing c with
    | nil => exact .refl _
    | cons name names ih => exact (Docs.Retains.addSeeAlso c _ name).trans (ih _)

theorem addLine (h : Follows d own kind notes s g) (indent : Bytes) :
    Follows d own kind notes (s.addLine indent) (g.addLine indent) := by
  unfold Reading.addLine Gist.addLine
  split
  next hpart => exact h.writeIn _ hpart fun _ => rfl
  next hpart => exact h.writeIn _ hpart fun _ => rfl
  next hpart =>
    rw [h.mapWording fun wording => by rw [hpart]; rfl]
    exact h

theorem addEmptyLine (h : Follows d own kind notes s g) :
    Follows d own kind notes s.addEmptyLine g.addEmptyLine := by
  have hline := h.addLine []
  have hpart := h.toPart .detailed
  unfold Reading.addEmptyLine
  split
  next hdetailed =>
    -- Outside of the footnote it makes no difference to the gist in which part
    -- the line stands.
    have hgist : g.addEmptyLine = g.addLine [] := by
      cases g with
      | own => rfl
      | note part wording =>
          obtain rfl : part = .detailed := h.tracks.1.symm.trans hdetailed
          rfl
      | past wording => rfl
    rw [hgist]
    exact hline
  next hdetailed =>
    have hgist : g.addEmptyLine = g.toPart .detailed := by
      cases g with
      | own => rfl
      | note part wording =>
          cases part with
          | detailed => exact (hdetailed h.tracks.1).elim
          | brief => rfl
          | seeAlso => rfl
      | past wording => rfl
    rw [hgist]
    exact hpart

theorem addNewLine (h : Follows d own kind notes s g) (indent blank : Bytes)
    (after : List CommentToken) :
    Follows d own kind notes (s.addNewLine indent blank after)
      (g.addNewLine indent blank after) := by
  cases after with
  | nil => exact h.addLine _
  | cons token rest =>
      cases token with
      | newLine lineBreak indent => exact h.addEmptyLine
      | endOfText => exact h.addLine _
      | _ => exact h.addLine _

theorem openRegion (h : Follows d own kind notes s g) :
    Follows d own kind notes s.openRegion g := by
  unfold Reading.openRegion
  split
  · exact h.warn _
  · exact h.retain rfl rfl (.refl _)

theorem closeRegion (h : Follows d own kind notes s g) :
    Follows d own kind notes s.closeRegion g := by
  unfold Reading.closeRegion
  split
  · exact h.warn _
  · exact h.retain rfl rfl (.refl _)

theorem face?_place (h : Follows d own kind notes s g) :
    ∃ face, s.docs.face? s.place.block = some face := by
  rcases h.place with hown | ⟨-, face, hface, -⟩
  · obtain ⟨wording, hhome⟩ := h.home
    obtain ⟨face, hface, -⟩ := h.kind_eq hhome
    exact ⟨face, hown ▸ hface⟩
  · exact ⟨face, hface⟩

theorem startFootnote (h : Follows d own kind notes s g) :
    Follows d own kind notes s.startFootnote g.startFootnote := by
  obtain ⟨parent, hparent⟩ := h.face?_place
  have hunknown : d.face? s.docs.blocks.size = none := by
    cases hsize : d.face? s.docs.blocks.size with
    | none => rfl
    | some face =>
        obtain ⟨face', hface', -⟩ := h.kind_eq hsize
        exact (Nat.lt_irrefl _ (Docs.lt_size_of_face? hface')).elim
  refine ⟨h.home, ?_, ?_, ?_, h.tracks.startFootnote hparent⟩
  · intro id face hid hne
    exact face?_startFootnote_of_ne hparent (h.kept id face hid hne)
      (h.place_ne hid hne)
  · intro id face hid hnone hkind
    rw [face?_startFootnote hparent] at hid
    split at hid
    · rw [← Option.some.inj hid]
    · split at hid
      next heq =>
        -- The block that gets the footnote is the one that the stretch began
        -- with, or a footnote itself.
        rw [heq] at hnone
        rw [← Option.some.inj hid] at hkind
        rcases h.place with hown | ⟨-, face', hplace, hnote⟩
        · obtain ⟨wording, hhome⟩ := h.home
          rw [hown, hhome] at hnone
          simp at hnone
        · rw [hparent] at hplace
          obtain rfl := Option.some.inj hplace
          exact (hkind hnote).elim
      next => exact h.fresh id face hid hnone hkind
  · refine .inr ⟨hunknown, ⟨.footnote s.place.block, [], .empty⟩, ?_, _, rfl⟩
    exact (face?_startFootnote hparent _).trans (if_pos rfl)

theorem joinGroup (h : Follows d own kind notes s g) (command : Command)
    (argument : Bytes) :
    Follows d own kind notes (s.joinGroup command argument).1 g := by
  unfold Reading.joinGroup
  dsimp only
  split
  · exact h.warn _
  · refine h.retain rfl rfl
      ((Docs.Retains.getGroup s.docs (splitWord argument).1).trans ?_)
    exact .modifyBlock _ _ fun _ => rfl

theorem setTarget (h : Follows d own kind notes s g) (command : Command)
    (argument : Bytes) :
    Follows d own kind notes (s.setTarget command argument).1 g := by
  unfold Reading.setTarget
  dsimp only
  split
  · exact h.warn _
  · split
    · exact h.retain rfl rfl (.setTarget _ _ _ _ _)
    · exact h.retain rfl rfl (.setTarget _ _ _ _ _)

theorem addImport (h : Follows d own kind notes s g) (argument : Bytes) :
    Follows d own kind notes (s.addImport argument).1 g := by
  unfold Reading.addImport
  dsimp only
  split
  · exact h.warn _
  · exact h.modifyBlock fun _ => rfl

end Follows

end Reading

namespace Docs

/-- From one state of the documentation to another stretches are written into
the given blocks, and nothing else changes the face of a block. -/
inductive Written : Docs → List (BlockId × Gist) → Docs → Prop
  | calm {d d' : Docs} : d.Retains d' → Written d [] d'
  | stretch {d : Docs} {own : BlockId} {kind : BlockKind} {notes : List BlockId}
      {s : Reading} {g : Gist} : s.Follows d own kind notes g →
      Written d [(own, g)] s.docs
  | trans {d d' d'' : Docs} {writings more : List (BlockId × Gist)} :
      Written d writings d' → Written d' more d'' →
      Written d (writings ++ more) d''

theorem Written.settle {d d' d'' : Docs} {writings : List (BlockId × Gist)}
    (h : d.Written writings d') (h' : d'.Retains d'') :
    d.Written writings d'' := by
  have hboth := h.trans (.calm h')
  rwa [List.append_nil] at hboth

theorem Written.kind_eq {d d' : Docs} {writings : List (BlockId × Gist)}
    (h : d.Written writings d') {id : BlockId} {face : BlockFace}
    (hface : d.face? id = some face) :
    ∃ face', d'.face? id = some face' ∧ face'.kind = face.kind := by
  induction h generalizing face with
  | calm hretains => exact ⟨face, hretains.old id face hface, rfl⟩
  | stretch hfollows => exact hfollows.kind_eq hface
  | trans _ _ ih ih' =>
      obtain ⟨face', hface', hkind⟩ := ih hface
      obtain ⟨face'', hface'', hkind'⟩ := ih' hface'
      exact ⟨face'', hface'', hkind'.trans hkind⟩

/-! ## The blocks of groups -/

def groupBlock? (d : Docs) (name : Bytes) : Option BlockId :=
  ((d.findGroup? name).bind d.group?).map (·.block)

theorem group?_getGroup_of_none {d : Docs} {name : Bytes}
    (h : d.findGroup? name = none) (id : GroupId) :
    (d.getGroup name).2.group? id =
      if id = d.groups.size then some { name, block := d.blocks.size }
      else d.group? id := by
  unfold getGroup
  rw [h]
  exact Array.getElem?_push

theorem listedGroups_getGroup {d : Docs} {name : Bytes}
    (h : d.findGroup? name = none) :
    (d.getGroup name).2.listedGroups = d.listedGroups ++ [d.groups.size] := by
  unfold getGroup
  rw [h]

/-- Every group that is found by its name is found later, with its block. -/
def KeepsGroups (d d' : Docs) : Prop :=
  ∀ name block, d.groupBlock? name = some block → d'.groupBlock? name = some block

namespace KeepsGroups

variable {d d' d'' : Docs}

theorem trans (h : d.KeepsGroups d') (h' : d'.KeepsGroups d'') :
    d.KeepsGroups d'' :=
  fun name block hblock => h' name block (h name block hblock)

theorem of_eq (hgroups : d'.groups = d.groups)
    (hlisted : d'.listedGroups = d.listedGroups) : d.KeepsGroups d' := by
  intro name block hblock
  rw [← hblock]
  unfold groupBlock? findGroup? group?
  rw [hgroups, hlisted]

theorem getGroup (d : Docs) (name : Bytes) :
    d.KeepsGroups (d.getGroup name).2 := by
  cases hfind : d.findGroup? name with
  | some id =>
      rw [getGroup_of_some hfind]
      exact .of_eq rfl rfl
  | none =>
      intro other block hblock
      obtain ⟨group, hgroup, hblock⟩ := Option.map_eq_some_iff.1 hblock
      obtain ⟨id, hid, hgroup⟩ := Option.bind_eq_some_iff.1 hgroup
      have hne : name ≠ other := by
        rintro rfl
        simp [hfind] at hid
      -- The new group has another name, so the one before is found first.
      have hlater : (d.getGroup name).2.findGroup? other = some id := by
        have hanswers :
            (fun id => ((d.getGroup name).2.group? id).any (·.name == other)) =
            fun id => (d.group? id).any (·.name == other) := by
          funext id
          rw [group?_getGroup_of_none hfind]
          split
          next hsize => simp [hsize, hne, group?]
          next => rfl
        unfold findGroup? at hid ⊢
        rw [hanswers, listedGroups_getGroup hfind, List.find?_append, hid]
        rfl
      have hold : id ≠ d.groups.size := by
        rintro rfl
        simp [group?] at hgroup
      simp [groupBlock?, hlater, group?_getGroup_of_none hfind, hold,
        hgroup, hblock]

end KeepsGroups

theorem findGroup?_getGroup (d : Docs) (name : Bytes) :
    (d.getGroup name).2.findGroup? name = some (d.getGroup name).1 := by
  cases hfind : d.findGroup? name with
  | some id =>
      rw [getGroup_of_some hfind]
      exact hfind
  | none =>
      have hnew : (d.getGroup name).1 = d.groups.size := by simp [getGroup, hfind]
      have hanswers (id : GroupId) (hid : id ∈ d.listedGroups) :
          ((d.getGroup name).2.group? id).any (·.name == name) = true →
            id = d.groups.size := by
        rw [group?_getGroup_of_none hfind]
        split
        next hsize => exact fun _ => hsize
        next => exact fun hold => (List.find?_eq_none.1 hfind id hid hold).elim
      unfold findGroup?
      rw [listedGroups_getGroup hfind, List.find?_append, hnew]
      cases hold : d.listedGroups.find?
          fun id => ((d.getGroup name).2.group? id).any (·.name == name) with
      | some id =>
          have hname := List.find?_some hold
          rw [hanswers id (List.mem_of_find?_eq_some hold) hname]
          rfl
      | none => simp [group?_getGroup_of_none hfind]

theorem groupBlock?_getGroup (d : Docs) (name : Bytes) :
    (d.getGroup name).2.groupBlock? name =
      some ((((d.getGroup name).2.group? (d.getGroup name).1).map
        (·.block)).getD 0) := by
  obtain ⟨group, hgroup⟩ := d.group?_getGroup name
  simp [groupBlock?, findGroup?_getGroup, hgroup]

theorem face?_of_groupBlock? {c : Catalog} (hc : c.Consistent) {name : Bytes}
    {block : BlockId} (h : c.docs.groupBlock? name = some block) :
    ∃ face, c.docs.face? block = some face ∧ face.kind.IsGroup := by
  obtain ⟨group, hgroup, rfl⟩ := Option.map_eq_some_iff.1 h
  obtain ⟨id, -, hgroup⟩ := Option.bind_eq_some_iff.1 hgroup
  obtain ⟨links, hlinks, hkind⟩ :=
    hc.docs.grouped.block _ _ (Docs.groupLinks?_of_group? hgroup)
  obtain ⟨b, hb, rfl⟩ := Option.map_eq_some_iff.1 hlinks
  exact ⟨b.face, Docs.face?_of_block? hb, id, hkind⟩

end Docs

namespace Reading

theorem Course.keepsGroups {s s' : Reading} (h : s.Course s') :
    s.docs.KeepsGroups s'.docs := by
  have hbound (c : Catalog) (block : BlockId) (item : ItemId) (name : Bytes) :
      c.docs.KeepsGroups (c.bindTarget block item name).docs := by
    unfold Catalog.bindTarget
    repeat' split
    all_goals exact .of_eq rfl rfl
  induction h with
  | trans _ _ ih ih' => exact ih.trans ih'
  | addSeeAlso s name =>
      change s.docs.KeepsGroups (s.reader.catalog.addSeeAlso _ name).docs
      unfold Catalog.addSeeAlso
      dsimp only
      split <;> exact .of_eq rfl rfl
  | openRegion s =>
      unfold Reading.openRegion
      split <;> exact .of_eq rfl rfl
  | closeRegion s =>
      unfold Reading.closeRegion
      split <;> exact .of_eq rfl rfl
  | startFootnote s =>
      change s.docs.KeepsGroups (s.docs.addFootnote s.place.block)
      unfold Docs.addFootnote
      split <;> exact .of_eq rfl rfl
  | joinGroup s command argument =>
      unfold Reading.joinGroup
      dsimp only
      split
      · exact .of_eq rfl rfl
      · exact (Docs.KeepsGroups.getGroup s.docs (splitWord argument).1).trans
          (.of_eq rfl rfl)
  | defineGroup s command argument =>
      unfold Reading.defineGroup
      dsimp only
      split
      · exact .of_eq rfl rfl
      · exact (Docs.KeepsGroups.getGroup s.docs (splitWord argument).1).trans
          (.of_eq rfl rfl)
  | setTarget s command argument =>
      have hset (c : Catalog) (n : Int) (name : Bytes) :
          c.docs.KeepsGroups (c.setTarget s.place.block command name n).docs := by
        have hmarked : c.docs.KeepsGroups
            (c.modifyBlock s.place.block fun b =>
              { b with hasTarget := true }).docs :=
          .of_eq rfl rfl
        unfold Catalog.setTarget
        dsimp only
        split
        · exact hmarked.trans (hbound _ _ _ _)
        · exact .of_eq rfl rfl
      unfold Reading.setTarget
      dsimp only
      split
      · exact .of_eq rfl rfl
      · split <;> exact hset _ _ _
  | _ => exact .of_eq rfl rfl

theorem retains_defineGroup (s : Reading) (command : Command) (argument : Bytes) :
    s.docs.Retains (s.defineGroup command argument).1.docs := by
  unfold Reading.defineGroup
  dsimp only
  split
  · exact .of_blocks rfl
  · refine (Docs.Retains.getGroup s.docs (splitWord argument).1).trans
      (.modifyBlock _ _ ?_)
    exact fun _ => rfl

theorem groupBlock?_defineGroup (s : Reading) (command : Command)
    {argument : Bytes} (hname : ¬(splitWord argument).1.isEmpty = true) :
    (s.defineGroup command argument).1.docs.groupBlock? (splitWord argument).1 =
      some (s.defineGroup command argument).1.place.block := by
  have hadded := s.docs.groupBlock?_getGroup (splitWord argument).1
  unfold Reading.defineGroup
  dsimp only
  rw [if_neg hname]
  exact hadded

/-- Comments that began in the block `own` of the documentation `d` have come to
`s`: some stretches are written, and the last one is being written. -/
inductive Pursues (d : Docs) (own : BlockId) (s : Reading) (g : Stretches) : Prop
  | intro {d' : Docs} {done : List (BlockId × Gist)} {last : BlockId}
      {groups : List BlockId} {kind : BlockKind} {notes : List BlockId} :
      d.Written done d' → done.map Prod.snd = g.done →
      done.map Prod.fst ++ [last] = own :: groups →
      List.Forall₂ (s.docs.groupBlock? · = some ·) g.groups groups →
      s.Follows d' last kind notes g.gist → Pursues d own s g

namespace Pursues

variable {d : Docs} {own : BlockId} {s s' : Reading} {g : Stretches}

theorem begin {kind : BlockKind} {notes : List BlockId}
    (hplace : s.place.block = own) (hown : s.docs.HasNotes own kind notes) :
    Pursues s.docs own s .begin :=
  .intro (.calm (.refl _)) rfl rfl .nil (.begin hplace hown)

theorem mapGist (h : Pursues d own s g) (f : Gist → Gist)
    (hkeeps : s.docs.KeepsGroups s'.docs)
    (hf : ∀ {d' own kind notes}, s.Follows d' own kind notes g.gist →
      s'.Follows d' own kind notes (f g.gist)) :
    Pursues d own s' (g.mapGist f) := by
  obtain ⟨hwritten, hgists, hblocks, hnamed, hfollows⟩ := h
  exact .intro hwritten hgists hblocks (hnamed.imp fun _ _ => hkeeps _ _)
    (hf hfollows)

theorem keep (h : Pursues d own s g) (hkeeps : s.docs.KeepsGroups s'.docs)
    (hs : ∀ {d' own kind notes}, s.Follows d' own kind notes g.gist →
      s'.Follows d' own kind notes g.gist) : Pursues d own s' g :=
  h.mapGist id hkeeps hs

theorem defineGroup (h : Pursues d own s g) (hc : s.reader.catalog.Consistent)
    (command : Command) (argument : Bytes) :
    Pursues d own (s.defineGroup command argument).1
      (if (splitWord argument).1.isEmpty then g
      else g.describeGroup (splitWord argument).1) := by
  have hcourse := Course.defineGroup s command argument
  obtain ⟨hreaches, -⟩ := (Advances.course hcourse).catalog hc
  split
  next hname =>
    refine h.keep hcourse.keepsGroups fun hfollows => ?_
    unfold Reading.defineGroup
    dsimp only
    rw [if_pos hname]
    exact hfollows.warn _
  next hname =>
    have hblock := groupBlock?_defineGroup s command hname
    obtain ⟨face, hface, -⟩ :=
      Docs.face?_of_groupBlock? (hreaches.consistent hc) hblock
    obtain ⟨hwritten, hgists, hblocks, hnamed, hfollows⟩ := h
    have hfinished := (hwritten.trans (.stretch hfollows)).settle
      (retains_defineGroup s command argument)
    have hnamed' := List.rel_append (hnamed.imp fun _ _ => hcourse.keepsGroups _ _)
      (.cons hblock .nil)
    refine .intro hfinished ?_ ?_ hnamed' (.begin rfl ⟨face.wording, hface⟩)
    · simp [hgists, Stretches.describeGroup, Stretches.gists]
    · rw [List.map_append, ← List.cons_append, ← hblocks]
      rfl

theorem obey (h : Pursues d own s g) (hc : s.reader.catalog.Consistent)
    (command : Command) (argument : Bytes) :
    Pursues d own (s.obey command argument).1 (g.obey command argument).1 ∧
      (s.obey command argument).2 = (g.obey command argument).2 := by
  have hgroup (command : Command) :
      Pursues d own (s.defineGroup command argument).1
          (if (splitWord argument).1.isEmpty then (g, (splitWord argument).2)
          else (g.describeGroup (splitWord argument).1, [])).1 ∧
        (s.defineGroup command argument).2 =
          (if (splitWord argument).1.isEmpty then (g, (splitWord argument).2)
          else (g.describeGroup (splitWord argument).1, [])).2 := by
    have hdefined := h.defineGroup hc command argument
    constructor
    · split <;> simp_all
    · unfold Reading.defineGroup
      dsimp only
      split <;> rfl
  have htarget (command : Command) :
      Pursues d own (s.setTarget command argument).1 g ∧
        (s.setTarget command argument).2 =
          if (splitWord argument).1.isEmpty then (splitWord argument).2
          else [] := by
    refine ⟨h.keep (Course.setTarget s command argument).keepsGroups
      fun hfollows => hfollows.setTarget command argument, ?_⟩
    unfold Reading.setTarget
    dsimp only
    split <;> rfl
  cases command with
  | footnote =>
      exact ⟨h.mapGist _ (Course.startFootnote s).keepsGroups .startFootnote, rfl⟩
  | brief =>
      exact ⟨h.mapGist (·.toPart .brief) (Course.toPart s .brief).keepsGroups
        fun h => h.toPart .brief, rfl⟩
  | see =>
      exact ⟨h.mapGist (·.toPart .seeAlso) (Course.toPart s .seeAlso).keepsGroups
        fun h => h.toPart .seeAlso, rfl⟩
  | title =>
      exact ⟨h.keep (.of_eq rfl rfl) fun h => h.modifyBlock fun _ => rfl, rfl⟩
  | import_ =>
      refine ⟨h.keep (Course.obey s .import_ argument).keepsGroups fun h =>
        h.addImport argument, ?_⟩
      change (s.addImport argument).2 = (splitWord argument).2
      unfold Reading.addImport
      dsimp only
      split <;> rfl
  | inGroup =>
      refine ⟨h.keep (Course.joinGroup s .inGroup argument).keepsGroups fun h =>
        h.joinGroup .inGroup argument, ?_⟩
      change (s.joinGroup .inGroup argument).2 = (splitWord argument).2
      unfold Reading.joinGroup
      dsimp only
      split <;> rfl
  | group => exact hgroup .group
  | subGroup => exact hgroup .subGroup
  | _ => exact htarget _

theorem obeyCustom (h : Pursues d own s g) (mark : UInt8) (name argument : Bytes) :
    Pursues d own (s.obeyCustom mark name argument).1
        (g.obeyCustom s.reader.catalog.vocabulary mark name argument).1 ∧
      (s.obeyCustom mark name argument).2 =
        (g.obeyCustom s.reader.catalog.vocabulary mark name argument).2 := by
  unfold Reading.obeyCustom Stretches.obeyCustom
  cases s.reader.catalog.vocabulary.find? name with
  | none =>
      have hkeeps := (Course.addText s (mark :: name)).keepsGroups
      exact ⟨h.mapGist (·.addText (mark :: name)) hkeeps fun h => h.addText _, rfl⟩
  | some command =>
      refine ⟨h.keep (.of_eq rfl rfl) fun h => h.modifyBlock ?_, rfl⟩
      exact fun _ => rfl

theorem readTokens (tokens : List CommentToken) (h : Pursues d own s g)
    (hc : s.reader.catalog.Consistent) (indent left : Option Bytes) :
    Pursues d own (s.readTokens indent left tokens)
      (g.readTokens s.reader.catalog.vocabulary indent left tokens) := by
  induction tokens generalizing s g indent left with
  | nil => exact h
  | cons token rest ih =>
      -- Every step leads to a consistent catalog with the same vocabulary.
      have hnext {s' : Reading} {g' : Stretches} (hcourse : s.Course s')
          (h' : Pursues d own s' g') (indent left : Option Bytes) :
          Pursues d own (s'.readTokens indent left rest)
            (g'.readTokens s.reader.catalog.vocabulary indent left rest) := by
        obtain ⟨hreaches, -⟩ := (Advances.course hcourse).catalog hc
        rw [← hreaches.vocabulary]
        exact ih h' (hreaches.consistent hc) indent left
      unfold Reading.readTokens Stretches.readTokens
      cases token with
      | endOfText => exact h
      | text text =>
          have hcourse := Course.addText s (left.getD text)
          exact hnext hcourse
            (h.mapGist (·.addText (left.getD text)) hcourse.keepsGroups fun h =>
              h.addText _) _ _
      | newLine lineBreak blank =>
          have hcourse := Course.addNewLine s (indent.getD blank) blank rest
          exact hnext hcourse
            (h.mapGist (·.addNewLine (indent.getD blank) blank rest)
              hcourse.keepsGroups fun h => h.addNewLine _ _ _) _ _
      | openBrace =>
          have hcourse := Course.openRegion s
          exact hnext hcourse (h.keep hcourse.keepsGroups .openRegion) _ _
      | closeBrace =>
          have hcourse := Course.closeRegion s
          exact hnext hcourse (h.keep hcourse.keepsGroups .closeRegion) _ _
      | command mark command =>
          obtain ⟨hobeyed, hleft⟩ := h.obey hc command (argumentOf rest)
          dsimp only
          rw [← hleft]
          exact hnext (.obey s _ _) hobeyed _ _
      | other mark name =>
          obtain ⟨hobeyed, hleft⟩ := h.obeyCustom mark name (argumentOf rest)
          dsimp only
          rw [← hleft]
          exact hnext (.obeyCustom s _ _ _) hobeyed _ _

theorem read (h : Pursues d own s g) (hc : s.reader.catalog.Consistent)
    (comment : Bytes) :
    Pursues d own ((s.addSource comment).readText comment)
      (g.readText s.reader.catalog.vocabulary comment) := by
  have hsource : Pursues d own (s.addSource comment) g :=
    h.keep (.of_eq rfl rfl) fun h => h.modifyBlock fun _ => rfl
  unfold Reading.readText Stretches.readText
  split
  · exact hsource.mapGist .addEmptyLine (Course.addEmptyLine _).keepsGroups
      fun h => h.addEmptyLine
  · have hline := Course.addLine (s.addSource comment) []
    obtain ⟨hreaches, -⟩ :=
      (Advances.course ((Course.addSource s comment).trans hline)).catalog hc
    rw [← hreaches.vocabulary]
    exact (hsource.mapGist (·.addLine []) hline.keepsGroups fun h =>
      h.addLine []).readTokens _ (hreaches.consistent hc) none none

theorem congr (h : Pursues d own s g) (hdocs : s'.docs = s.docs)
    (hplace : s'.place = s.place) : Pursues d own s' g := by
  refine h.keep (.of_eq (by rw [hdocs]) (by rw [hdocs])) fun hfollows => ?_
  refine hfollows.retain (by rw [hplace]) (by rw [hplace]) ?_
  rw [hdocs]
  exact .refl _

/-- In the end all stretches are written, the first into the block that was
chosen and every later one into the block of its group. -/
theorem written (h : Pursues d own s g) :
    ∃ groups, List.Forall₂ (s.docs.groupBlock? · = some ·) g.groups groups ∧
      d.Written ((own :: groups).zip g.gists) s.docs := by
  obtain @⟨d', done, last, groups, kind, notes, hwritten, hgists, hblocks,
      hnamed, hfollows⟩ := h
  refine ⟨groups, hnamed, ?_⟩
  have hall : done ++ [(last, g.gist)] = (own :: groups).zip g.gists :=
    List.zip_of_prod (by simpa using hblocks) (by simp [hgists, Stretches.gists])
  rw [← hall]
  exact hwritten.trans (.stretch hfollows)

end Pursues

end Reading

/-! ## Comments that continue each other -/

namespace CommentReader

/-- Comments with a block of their own are read, each of which continues the one
before. -/
inductive ReadsAhead (r : CommentReader) : List Bytes → CommentReader → Prop
  | first (comment file : Bytes) (pos : Pos) :
      ReadsAhead r [comment] (r.readAhead comment file pos false)
  | more {comments : List Bytes} {r' : CommentReader} (comment file : Bytes)
      (pos : Pos) : ReadsAhead r comments r' →
      ReadsAhead r (comments ++ [comment]) (r'.readAhead comment file pos true)

/-- Comments are read that go into the given block: into a new one if they stand
before a declaration, into the block of the item if they refer back to one. -/
inductive Reads (r : CommentReader) : BlockId → List Bytes → CommentReader → Prop
  | ahead {comments : List Bytes} {r' : CommentReader} : r.ReadsAhead comments r' →
      Reads r r.catalog.docs.blocks.size comments r'
  | back (comment file : Bytes) (pos : Pos) {item : ItemId} :
      item < r.catalog.declarations.items.size →
      Reads r (r.catalog.itemBlock item).1 [comment]
        (r.readBack comment file pos item)

theorem startNew_advances (r : CommentReader) (file : Bytes) (pos : Pos) :
    r.catalog.Advances (r.startNew file pos).reader.catalog ∧
      r.catalog.docs.Retains (r.startNew file pos).docs ∧
      (r.startNew file pos).docs.HasNotes r.catalog.docs.blocks.size .normal [] ∧
      (r.startNew file pos).place.block = r.catalog.docs.blocks.size := by
  have hdropped : r.catalog.Advances r.noteDropped.catalog ∧
      r.noteDropped.catalog.docs.blocks = r.catalog.docs.blocks := by
    unfold noteDropped
    split
    · split
      · exact ⟨.refl _, rfl⟩
      · exact ⟨.note _ _, rfl⟩
    · exact ⟨.refl _, rfl⟩
  obtain ⟨hadvances, hblocks⟩ := hdropped
  rw [← hblocks]
  have hretains := (Docs.Retains.of_blocks hblocks).trans (.addBlock _ file pos)
  exact ⟨hadvances.trans (.newBlock _ file pos), hretains,
    Docs.hasNotes_addBlock _ file pos, rfl⟩

theorem ReadsAhead.pursues {r r' : CommentReader} {comments : List Bytes}
    (h : r.ReadsAhead comments r') (hc : r.catalog.Consistent) :
    r.catalog.Reaches r'.catalog ∧ ∃ d s, r.catalog.docs.Retains d ∧
      s.reader.catalog = r'.catalog ∧ r'.resume = some s.place ∧
      Reading.Pursues d r.catalog.docs.blocks.size s
        (.ofComments r.catalog.vocabulary comments) := by
  induction h with
  | first comment file pos =>
      obtain ⟨hadvances, hretains, hnotes, hplace⟩ := r.startNew_advances file pos
      have hread := Reading.Advances.read (r.startNew file pos) comment
      have hreaches := (hadvances hc).1
      have hpursues := (Reading.Pursues.begin hplace hnotes).read
        (hreaches.consistent hc) comment
      rw [hreaches.vocabulary] at hpursues
      exact ⟨((hadvances.trans hread.catalog) hc).1, _, _, hretains, rfl, rfl,
        hpursues⟩
  | @more comments r' comment file pos _ ih =>
      obtain ⟨hreaches, d, s, hretains, hcatalog, hresume, hpursues⟩ := ih
      have hread := Reading.Advances.read ⟨r', file, pos, s.place⟩ comment
      have hc' := hreaches.consistent hc
      have hresumed : Reading.Pursues d r.catalog.docs.blocks.size
          ⟨r', file, pos, s.place⟩ (.ofComments r.catalog.vocabulary comments) :=
        hpursues.congr (congrArg Catalog.docs hcatalog.symm) rfl
      have hpursues' := hresumed.read hc' comment
      rw [hreaches.vocabulary] at hpursues'
      have hahead : r'.readAhead comment file pos true =
          { (((⟨r', file, pos, s.place⟩ : Reading).addSource comment).readText
              comment).reader with
            resume := some (((⟨r', file, pos, s.place⟩ : Reading).addSource
              comment).readText comment).place } := by
        simp only [readAhead, if_true, hresume]
      rw [hahead]
      refine ⟨hreaches.trans (hread.catalog hc').1, d, _, hretains, rfl, rfl, ?_⟩
      rw [Stretches.ofComments, List.foldl_append]
      exact hpursues'

theorem startBack_advances {r : CommentReader} (hc : r.catalog.Consistent)
    (file : Bytes) (pos : Pos) {item : ItemId}
    (hitem : item < r.catalog.declarations.items.size) :
    r.catalog.Advances (r.startBack file pos item).reader.catalog ∧
      r.catalog.docs.Retains (r.startBack file pos item).docs ∧
      ∃ kind notes, (r.startBack file pos item).docs.HasNotes
        (r.catalog.itemBlock item).1 kind notes := by
  have hface (b : Block) :
      (if b.file.isEmpty then { b with file, pos } else b).face = b.face := by
    split <;> rfl
  have hedited :=
    Docs.Retains.modifyBlock (r.catalog.itemBlock item).2.docs
      (r.catalog.itemBlock item).1 hface
  obtain ⟨kind, notes, hnotes⟩ := Docs.hasNotes_itemBlock hc item
  exact ⟨Leads.startBack r file pos hitem,
    (Docs.Retains.itemBlock r.catalog item).trans hedited, kind, notes,
    hedited.hasNotes hnotes⟩

/-- Whatever comments say, they are written stretch by stretch, the first one
into the block that they go into. -/
theorem Reads.written {r r' : CommentReader} {own : BlockId}
    {comments : List Bytes} (h : r.Reads own comments r')
    (hc : r.catalog.Consistent) :
    r.catalog.Reaches r'.catalog ∧
      ∃ groups, List.Forall₂ (r'.catalog.docs.groupBlock? · = some ·)
          (Stretches.ofComments r.catalog.vocabulary comments).groups groups ∧
        r.catalog.docs.Written
          ((own :: groups).zip
            (Stretches.ofComments r.catalog.vocabulary comments).gists)
          r'.catalog.docs := by
  have hwritten {d : Docs} {s : Reading} (hretains : r.catalog.docs.Retains d)
      (hcatalog : s.reader.catalog = r'.catalog)
      (hpursues :
        Reading.Pursues d own s (.ofComments r.catalog.vocabulary comments)) :
      ∃ groups, List.Forall₂ (r'.catalog.docs.groupBlock? · = some ·)
          (Stretches.ofComments r.catalog.vocabulary comments).groups groups ∧
        r.catalog.docs.Written
          ((own :: groups).zip
            (Stretches.ofComments r.catalog.vocabulary comments).gists)
          r'.catalog.docs := by
    obtain ⟨groups, hgroups, hall⟩ := hpursues.written
    rw [← hcatalog]
    have hboth := (Docs.Written.calm hretains).trans hall
    exact ⟨groups, hgroups, hboth⟩
  cases h with
  | ahead hahead =>
      obtain ⟨hreaches, d, s, hretains, hcatalog, -, hpursues⟩ := hahead.pursues hc
      exact ⟨hreaches, hwritten hretains hcatalog hpursues⟩
  | @back comment file pos item hitem =>
      obtain ⟨hadvances, hretains, kind, notes, hnotes⟩ :=
        startBack_advances hc file pos hitem
      have hread := Reading.Advances.read (r.startBack file pos item) comment
      have hreaches := (hadvances hc).1
      have hpursues := (Reading.Pursues.begin rfl hnotes).read
        (hreaches.consistent hc) comment
      rw [hreaches.vocabulary] at hpursues
      exact ⟨((hadvances.trans hread.catalog) hc).1,
        hwritten hretains rfl hpursues⟩

end CommentReader

end LuaGloss

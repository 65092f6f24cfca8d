import LuaGloss.Proofs.Comment.Steps
import LuaGloss.Proofs.Docs.References

/-!
# What comments change

Reading a comment changes the documentation only: no declaration is added or
altered, and no scope is entered or left.  Where a comment refers to other
things, each name is bound at once or waits in the queue, so that after any
number of comments every reference is accounted for.
-/

namespace LuaGloss

variable {known : Bytes → ItemId → Prop}

def Declarations.FoundIn (d : Declarations) (known : Bytes → ItemId → Prop) :
    Prop :=
  ∀ name item, d.find name = some item → known name item

/-- What holds of the documentation while sources are read. -/
structure Docs.Sound (known : Bytes → ItemId → Prop) (d : Docs) : Prop where
  closed : d.Closed
  refers : d.Refers known
  isFinal : d.isFinal = false

theorem Docs.Sound.quiet {d d' : Docs} (h : d.Sound known) (hquiet : d.Quiet d') :
    d'.Sound known :=
  ⟨hquiet.closed h.closed, h.refers.quiet hquiet, hquiet.isFinal.trans h.isFinal⟩

theorem Docs.Sound.mono {known known' : Bytes → ItemId → Prop} {d : Docs}
    (h : d.Sound known)
    (hknown : ∀ name item, known name item → known' name item) :
    d.Sound known' :=
  ⟨h.closed, h.refers.mono hknown, h.isFinal⟩

namespace Catalog

/-- From `c` to `c'` neither declarations nor references change. -/
structure Quiet (c c' : Catalog) : Prop where
  declarations : c'.declarations = c.declarations
  docs : c.docs.Quiet c'.docs

namespace Quiet

variable (c : Catalog)

theorem refl : c.Quiet c := ⟨rfl, .refl _⟩

theorem trans {c c' c'' : Catalog} (h : c.Quiet c') (h' : c'.Quiet c'') :
    c.Quiet c'' :=
  ⟨h'.declarations.trans h.declarations, h.docs.trans h'.docs⟩

theorem note (notice : Notice) : c.Quiet (c.note notice) := ⟨rfl, .note _ _⟩

theorem warn (file : Bytes) (pos : Pos) (what : Warning) :
    c.Quiet (c.warn file pos what) :=
  ⟨rfl, .warn _ _ _ _⟩

theorem modifyBlock (id : BlockId) {f : Block → Block}
    (hf : ∀ b, (f b).seeAlso = b.seeAlso) : c.Quiet (c.modifyBlock id f) :=
  ⟨rfl, .modifyBlock _ _ hf⟩

theorem newBlock (file : Bytes) (pos : Pos) : c.Quiet (c.newBlock file pos).2 :=
  ⟨rfl, .addBlock _ _ _⟩

theorem getGroup (name : Bytes) :
    c.Quiet { c with docs := (c.docs.getGroup name).2 } :=
  ⟨rfl, .getGroup _ _⟩

theorem bindTarget (block : BlockId) (item : ItemId) (name : Bytes) :
    c.Quiet (c.bindTarget block item name) := by
  unfold Catalog.bindTarget
  split
  · exact .refl c
  next b hb =>
    split
    · exact .refl c
    · split
      · exact .warn c _ _ _
      · split
        · exact .warn c _ _ _
        · exact ⟨rfl, .attach _ _ (Array.getElem?_eq_some_iff.1 hb).1⟩

theorem setTarget (block : BlockId) (command : Command) (name : Bytes)
    (overload : Int) : c.Quiet (c.setTarget block command name overload) := by
  have hmarked :
      c.Quiet (c.modifyBlock block fun b => { b with hasTarget := true }) :=
    .modifyBlock c block fun _ => rfl
  unfold Catalog.setTarget
  dsimp only
  split
  · exact hmarked.trans (.bindTarget _ _ _ _)
  · exact hmarked.trans ⟨rfl, .enqueue _ rfl⟩

theorem itemBlock (item : ItemId) : c.Quiet (c.itemBlock item).2 := by
  rcases c.itemBlock_cases item with ⟨block, -, heq⟩ | ⟨-, file, pos, heq⟩
  · rw [heq]
    exact .refl c
  · rw [heq]
    refine ⟨rfl, (Docs.Quiet.addBlock c.docs file pos).trans ?_⟩
    exact .attach _ _ (by simp [Docs.addBlock])

end Quiet

theorem itemBlock_lt {c : Catalog} (h : c.docs.Closed) (item : ItemId) :
    (c.itemBlock item).1 < (c.itemBlock item).2.docs.blocks.size := by
  rcases c.itemBlock_cases item with ⟨block, hblock, heq⟩ | ⟨-, file, pos, heq⟩
  · rw [heq]
    exact h.attached item block hblock
  · rw [heq]
    simp [mapDocs, Docs.attach, Docs.modifyBlock, Docs.addBlock]

theorem sound_addSeeAlso {c : Catalog} (hknown : c.declarations.FoundIn known)
    {block : BlockId} (hblock : block < c.docs.blocks.size) (name : Bytes)
    (h : c.docs.Sound known) : (c.addSeeAlso block name).docs.Sound known := by
  obtain ⟨b, hb⟩ : ∃ b, c.docs.block? block = some b :=
    ⟨_, Array.getElem?_eq_getElem hblock⟩
  have hlength : ((c.docs.block? block).map (·.seeAlso.length)).getD 0 =
      (c.docs.seeAlso block).length := by
    simp [hb, Docs.seeAlso_of_block? hb]
  unfold addSeeAlso
  rw [hlength]
  generalize hitem : c.declarations.find name = item
  have hlisted :
      (c.docs.modifyBlock block fun b =>
        { b with seeAlso := b.seeAlso ++ [⟨name, item⟩] }).seeAlso block =
      c.docs.seeAlso block ++ [⟨name, item⟩] := by
    simp [Docs.seeAlso, Docs.block?_modifyBlock, hb]
  have hothers (other : BlockId) (hother : other ≠ block) :
      (c.docs.modifyBlock block fun b =>
        { b with seeAlso := b.seeAlso ++ [⟨name, item⟩] }).seeAlso other =
        c.docs.seeAlso other := by
    simp [Docs.seeAlso, Docs.block?_modifyBlock, Ne.symm hother]
  have hclosed :
      (c.docs.modifyBlock block fun b =>
        { b with seeAlso := b.seeAlso ++ [⟨name, item⟩] }).Closed := by
    constructor
    · simpa [Docs.modifyBlock, Docs.blockOf?] using h.closed.attached
    · simpa [Docs.modifyBlock, Docs.group?] using h.closed.groups
  dsimp only
  cases item with
  | some item =>
      refine ⟨hclosed,
        h.refers.append hlisted hothers
          (.inl ⟨⟨item, rfl, hknown name item hitem⟩, rfl⟩), h.isFinal⟩
  | none =>
      refine ⟨⟨hclosed.attached, hclosed.groups⟩,
        h.refers.append hlisted hothers (.inr ⟨rfl, ?_⟩), h.isFinal⟩
      simp [Docs.awaited, Docs.enqueue, Docs.modifyBlock, mapDocs,
        Catalog.modifyBlock]

theorem addSeeAlso_declarations (c : Catalog) (block : BlockId) (name : Bytes) :
    (c.addSeeAlso block name).declarations = c.declarations := by
  unfold addSeeAlso
  dsimp only
  split <;> rfl

theorem addSeeAlso_blocks_size (c : Catalog) (block : BlockId) (name : Bytes) :
    (c.addSeeAlso block name).docs.blocks.size = c.docs.blocks.size := by
  unfold addSeeAlso
  dsimp only
  split <;> simp [Catalog.modifyBlock, mapDocs, Docs.modifyBlock, Docs.enqueue]

end Catalog

/-! ## Reading the text of a comment -/

/-- What a comment reader needs for the references to be accounted for. -/
structure CommentReader.Sound (known : Bytes → ItemId → Prop)
    (r : CommentReader) : Prop where
  docs : r.catalog.docs.Sound known
  pending : ∀ id, r.pending = some id → id < r.catalog.docs.blocks.size
  resume : ∀ place, r.resume = some place →
    place.block < r.catalog.docs.blocks.size

theorem CommentReader.Sound.mono {known known' : Bytes → ItemId → Prop}
    {r : CommentReader} (h : r.Sound known)
    (hknown : ∀ name item, known name item → known' name item) :
    r.Sound known' :=
  ⟨h.docs.mono hknown, h.pending, h.resume⟩

theorem CommentReader.Sound.of_size_le {r r' : CommentReader}
    (h : r.Sound known) (hdocs : r'.catalog.docs.Sound known)
    (hsize : r.catalog.docs.blocks.size ≤ r'.catalog.docs.blocks.size)
    (hpending : ∀ id, r'.pending = some id → r.pending = some id)
    (hresume : ∀ place, r'.resume = some place → r.resume = some place) :
    r'.Sound known where
  docs := hdocs
  pending id hid := Nat.lt_of_lt_of_le (h.pending id (hpending id hid)) hsize
  resume place hplace :=
    Nat.lt_of_lt_of_le (h.resume place (hresume place hplace)) hsize

theorem CommentReader.Sound.of_none {r : CommentReader}
    (hdocs : r.catalog.docs.Sound known) (hpending : r.pending = none)
    (hresume : r.resume = none) : r.Sound known :=
  ⟨hdocs, by simp [hpending], by simp [hresume]⟩

namespace Reading

/-- The block that a comment writes into exists. -/
structure Sound (known : Bytes → ItemId → Prop) (s : Reading) : Prop where
  reader : s.reader.Sound known
  place : s.place.block < s.reader.catalog.docs.blocks.size

/-- What reading does from `s` to `s'`. -/
structure Affects (s s' : Reading) : Prop where
  declarations : s'.reader.catalog.declarations = s.reader.catalog.declarations
  scopes : s'.reader.scopes = s.reader.scopes
  sound : ∀ known, s.reader.catalog.declarations.FoundIn known → s.Sound known →
    s'.Sound known

namespace Affects

variable (s : Reading)

theorem refl : s.Affects s := ⟨rfl, rfl, fun _ _ h => h⟩

theorem trans {s s' s'' : Reading} (h : s.Affects s') (h' : s'.Affects s'') :
    s.Affects s'' where
  declarations := h'.declarations.trans h.declarations
  scopes := h'.scopes.trans h.scopes
  sound known hknown hs :=
    h'.sound known (h.declarations ▸ hknown) (h.sound known hknown hs)

theorem of_quiet {s s' : Reading}
    (hquiet : s.reader.catalog.Quiet s'.reader.catalog)
    (hscopes : s'.reader.scopes = s.reader.scopes)
    (hpending : ∀ id, s'.reader.pending = some id → s.reader.pending = some id)
    (hresume : s'.reader.resume = s.reader.resume)
    (hplace : s'.reader.catalog.docs.Closed → s'.place.block = s.place.block ∨
      (s.place.block < s.reader.catalog.docs.blocks.size →
        s'.place.block < s'.reader.catalog.docs.blocks.size)) :
    s.Affects s' where
  declarations := hquiet.declarations
  scopes := hscopes
  sound known _ hs := by
    have hdocs := hs.reader.docs.quiet hquiet.docs
    refine ⟨hs.reader.of_size_le hdocs hquiet.docs.size hpending fun place h =>
      hresume ▸ h, ?_⟩
    rcases hplace hdocs.closed with hsame | hmoved
    · rw [hsame]
      exact Nat.lt_of_lt_of_le hs.place hquiet.docs.size
    · exact hmoved hs.place

theorem mapCatalog {s : Reading} {f : Catalog → Catalog}
    (h : s.reader.catalog.Quiet (f s.reader.catalog)) :
    s.Affects (s.mapCatalog f) :=
  of_quiet h rfl (fun _ hid => hid) rfl fun _ => .inl rfl

theorem warn (what : Warning) : s.Affects (s.warn what) :=
  mapCatalog (.warn _ _ _ _)

theorem addSeeAlso (name : Bytes) :
    s.Affects (s.mapCatalog (·.addSeeAlso s.place.block name)) where
  declarations := s.reader.catalog.addSeeAlso_declarations _ name
  scopes := rfl
  sound known hknown hs := by
    have hsize := s.reader.catalog.addSeeAlso_blocks_size s.place.block name
    have hdocs := Catalog.sound_addSeeAlso hknown hs.place name hs.reader.docs
    refine ⟨hs.reader.of_size_le hdocs (Nat.le_of_eq hsize.symm) (fun _ h =>
      h) (fun _ h => h), ?_⟩
    exact Nat.lt_of_lt_of_le hs.place (Nat.le_of_eq hsize.symm)

theorem openRegion : s.Affects s.openRegion := by
  unfold Reading.openRegion
  split
  · exact .warn s _
  · exact of_quiet (.refl _) rfl (fun _ h => h) rfl fun _ => .inl rfl

theorem closeRegion : s.Affects s.closeRegion := by
  unfold Reading.closeRegion
  split
  · exact .warn s _
  · exact of_quiet (.refl _) rfl (fun _ h => h) rfl fun _ => .inl rfl

theorem startFootnote : s.Affects s.startFootnote := by
  refine of_quiet ⟨rfl, .addFootnote _ _⟩ rfl (fun _ h => h) rfl fun _ =>
    .inr fun hplace => ?_
  obtain ⟨b, hb⟩ : ∃ b, s.reader.catalog.docs.block? s.place.block = some b :=
    ⟨_, Array.getElem?_eq_getElem hplace⟩
  change s.reader.catalog.docs.blocks.size <
    (s.reader.catalog.docs.addFootnote s.place.block).blocks.size
  unfold Docs.addFootnote
  rw [hb]
  simp

theorem joinGroup (command : Command) (argument : Bytes) :
    s.Affects (s.joinGroup command argument).1 := by
  unfold Reading.joinGroup
  dsimp only
  split
  · exact .warn s _
  · have hgroup := Catalog.Quiet.getGroup s.reader.catalog (splitWord argument).1
    exact of_quiet (hgroup.trans (.modifyBlock _ _ fun _ => rfl)) rfl
      (fun _ h => h) rfl fun _ => .inl rfl

theorem defineGroup (command : Command) (argument : Bytes) :
    s.Affects (s.defineGroup command argument).1 := by
  unfold Reading.defineGroup
  dsimp only
  split
  · exact .warn s _
  · have hgroup := Catalog.Quiet.getGroup s.reader.catalog (splitWord argument).1
    refine of_quiet (hgroup.trans (.modifyBlock _ _ fun _ => rfl)) rfl ?_ rfl
      fun hclosed => .inr fun hplace => ?_
    · intro id hid
      exact (Option.filter_eq_some_iff.1 hid).1
    · obtain ⟨g, hg⟩ :=
        s.reader.catalog.docs.group?_getGroup (splitWord argument).1
      have hblock := congrArg (fun group => (group.map Group.block).getD 0) hg
      exact Nat.lt_of_le_of_lt (Nat.le_of_eq hblock) (hclosed.groups _ g hg)

theorem setTarget (command : Command) (argument : Bytes) :
    s.Affects (s.setTarget command argument).1 := by
  unfold Reading.setTarget
  dsimp only
  split
  · exact .warn s _
  · split
    · exact of_quiet (.setTarget _ _ _ _ _) rfl (fun _ h => h) rfl
        fun _ => .inl rfl
    · exact mapCatalog (.setTarget _ _ _ _ _)

theorem course {s s' : Reading} (h : s.Course s') : s.Affects s' := by
  induction h with
  | refl s => exact .refl s
  | trans _ _ ih ih' => exact ih.trans ih'
  | warn s what => exact .warn s what
  | toPart s part =>
      exact of_quiet (.refl _) rfl (fun _ h => h) rfl fun _ => .inl rfl
  | write s hf _ =>
      have hseeAlso (b : Block) := congrArg Block.seeAlso (hf b)
      exact mapCatalog (.modifyBlock _ _ hseeAlso)
  | addSeeAlso s name => exact .addSeeAlso s name
  | openRegion s => exact .openRegion s
  | closeRegion s => exact .closeRegion s
  | startFootnote s => exact .startFootnote s
  | joinGroup s command argument => exact .joinGroup s command argument
  | defineGroup s command argument => exact .defineGroup s command argument
  | setTarget s command argument => exact .setTarget s command argument

theorem read (comment : Bytes) :
    s.Affects ((s.addSource comment).readText comment) :=
  .course (.read s comment)

end Affects

end Reading

/-! ## The comment reader -/

namespace CommentReader

/-- What reading comments does from `r` to `r'`. -/
structure Affects (r r' : CommentReader) : Prop where
  declarations : r'.catalog.declarations = r.catalog.declarations
  scopes : r'.scopes = r.scopes
  sound : ∀ known, r.catalog.declarations.FoundIn known → r.Sound known →
    r'.Sound known

namespace Affects

variable (r : CommentReader)

theorem refl : r.Affects r := ⟨rfl, rfl, fun _ _ h => h⟩

theorem trans {r r' r'' : CommentReader} (h : r.Affects r')
    (h' : r'.Affects r'') : r.Affects r'' where
  declarations := h'.declarations.trans h.declarations
  scopes := h'.scopes.trans h.scopes
  sound known hknown hr :=
    h'.sound known (h.declarations ▸ hknown) (h.sound known hknown hr)

theorem mapCatalog {r : CommentReader} {f : Catalog → Catalog}
    (h : r.catalog.Quiet (f r.catalog)) : r.Affects (r.mapCatalog f) where
  declarations := h.declarations
  scopes := rfl
  sound _ _ hr :=
    hr.of_size_le (hr.docs.quiet h.docs) h.docs.size (fun _ hid => hid)
      fun _ hplace => hplace

theorem discard : r.Affects r.discard where
  declarations := rfl
  scopes := rfl
  sound _ _ hr := .of_none hr.docs rfl rfl

theorem readBack (comment file : Bytes) (pos : Pos) (item : ItemId) :
    r.Affects (r.readBack comment file pos item) := by
  have hquiet : r.catalog.Quiet (r.startBack file pos item).reader.catalog := by
    apply (Catalog.Quiet.itemBlock r.catalog item).trans
    apply Catalog.Quiet.modifyBlock
    intro b
    split <;> rfl
  have hread := Reading.Affects.read (r.startBack file pos item) comment
  refine ⟨hread.declarations.trans hquiet.declarations, hread.scopes, ?_⟩
  intro known hknown hr
  have hdocs := hr.docs.quiet hquiet.docs
  have hstart : (r.startBack file pos item).Sound known := by
    refine ⟨hr.of_size_le hdocs hquiet.docs.size (fun _ h => h) (fun _ h => h), ?_⟩
    have hlt := Catalog.itemBlock_lt hr.docs.closed item
    change (r.catalog.itemBlock item).1 <
      ((r.catalog.itemBlock item).2.modifyBlock _ _).docs.blocks.size
    simpa [Catalog.modifyBlock, Docs.modifyBlock] using hlt
  exact (hread.sound known (hquiet.declarations ▸ hknown) hstart).reader

theorem quiet_startNew (file : Bytes) (pos : Pos) :
    r.catalog.Quiet (r.startNew file pos).reader.catalog := by
  have hnoted : r.catalog.Quiet r.noteDropped.catalog := by
    unfold noteDropped
    split
    · split
      · exact .refl _
      · exact .note _ _
    · exact .refl _
  exact hnoted.trans (.newBlock _ file pos)

theorem readAhead (comment file : Bytes) (pos : Pos) (continues : Bool) :
    r.Affects (r.readAhead comment file pos continues) := by
  have hresume (s : Reading) (hdeclarations : s.reader.catalog.declarations =
      r.catalog.declarations)
      (hscopes : s.reader.scopes = r.scopes)
      (hsound : ∀ known, r.catalog.declarations.FoundIn known → r.Sound known →
        s.Sound known) :
      r.Affects { ((s.addSource comment).readText comment).reader with
        resume := some ((s.addSource comment).readText comment).place } := by
    have hread := Reading.Affects.read s comment
    refine ⟨hread.declarations.trans hdeclarations, hread.scopes.trans hscopes, ?_⟩
    intro known hknown hr
    obtain ⟨hreader, hplace⟩ :=
      hread.sound known (hdeclarations ▸ hknown) (hsound known hknown hr)
    refine ⟨hreader.docs, hreader.pending, ?_⟩
    rintro _ ⟨⟩
    exact hplace
  unfold CommentReader.readAhead
  dsimp only
  split
  next place hplace =>
    apply hresume _ rfl rfl
    intro known _ hr
    refine ⟨hr, hr.resume place ?_⟩
    split at hplace
    · exact hplace
    · simp at hplace
  next =>
    have hquiet := quiet_startNew r file pos
    have hlt : (r.startNew file pos).place.block <
        (r.startNew file pos).reader.catalog.docs.blocks.size := by
      change r.noteDropped.catalog.docs.blocks.size <
        (r.noteDropped.catalog.docs.blocks.push _).size
      simp
    apply hresume _ hquiet.declarations rfl
    intro known hknown hr
    refine ⟨⟨hr.docs.quiet hquiet.docs, ?_, ?_⟩, hlt⟩
    · rintro _ ⟨⟩
      exact hlt
    · intro place hplace
      exact Nat.lt_of_lt_of_le (hr.resume place hplace) hquiet.docs.size

end Affects

/-! ## Handing a block to a declaration -/

theorem scopes_takeBlock (r : CommentReader) :
    r.takeBlock.2.scopes = r.scopes := by
  unfold takeBlock
  dsimp only
  split
  · rfl
  · cases r.offered? <;> rfl

theorem sound_takeBlock {r : CommentReader} (hr : r.Sound known) :
    r.takeBlock.2.Sound known ∧ ∀ id, r.takeBlock.1 = some id →
    id < r.takeBlock.2.catalog.docs.blocks.size := by
  have hoffered (id : BlockId) (h : r.offered? = some id) :
      id < r.catalog.docs.blocks.size :=
    hr.pending id (Option.filter_eq_some_iff.1 h).1
  have hgrouped (c : Catalog) (id : BlockId) (group : GroupId) :
      c.Quiet (c.modifyBlock id fun b =>
        { b with group := b.group.or (some group) }) :=
          .modifyBlock c id fun _ => rfl
  unfold takeBlock
  dsimp only
  split
  · exact ⟨.of_none hr.docs rfl rfl, hoffered⟩
  next group _ =>
    cases hoffer : r.offered? with
    | some id =>
        have hquiet := (hgrouped r.catalog id group).docs
        refine ⟨.of_none (hr.docs.quiet hquiet) rfl rfl, ?_⟩
        rintro _ ⟨⟩
        exact Nat.lt_of_lt_of_le (hoffered id hoffer) hquiet.size
    | none =>
        have hnew := Catalog.Quiet.newBlock r.catalog [] .none
        have hquiet :=
          (hnew.trans (hgrouped _ r.catalog.docs.blocks.size group)).docs
        refine ⟨.of_none (hr.docs.quiet hquiet) rfl rfl, ?_⟩
        rintro _ ⟨⟩
        simp [Catalog.newBlock, Catalog.modifyBlock, Docs.modifyBlock,
          Docs.addBlock]

theorem scopes_declare (r : CommentReader) (item : Item) :
    (r.declare item).2.scopes = r.scopes := by
  rw [← r.scopes_takeBlock]
  unfold declare
  dsimp only
  split <;> rfl

theorem sound_declare {r : CommentReader} (hr : r.Sound known) (item : Item) :
    (r.declare item).2.Sound known := by
  obtain ⟨htaken, hblock⟩ := sound_takeBlock hr
  have hadded :
      r.takeBlock.2.catalog.docs.Quiet
        (r.takeBlock.2.catalog.addItem item).2.docs := by
    unfold Catalog.addItem
    dsimp only
    split
    · exact .note _ _
    · exact .refl _
  have hquiet :
      r.takeBlock.2.catalog.docs.Quiet (r.declare item).2.catalog.docs := by
    rw [Leads.catalog_declare]
    unfold Catalog.declared
    split
    next id hid =>
      exact hadded.trans
        (.attach _ _ (Nat.lt_of_lt_of_le (hblock id hid) hadded.size))
    next => exact hadded
  refine htaken.of_size_le (htaken.docs.quiet hquiet) hquiet.size ?_ ?_
  · unfold declare
    dsimp only
    split <;> exact fun _ h => h
  · unfold declare
    dsimp only
    split <;> exact fun _ h => h

end CommentReader

end LuaGloss

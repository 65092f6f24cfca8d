import LuaGloss.Proofs.Catalog.Step
import LuaGloss.Proofs.Comment.Course

/-!
# Comments are read step by step

Reading a comment changes the catalog in steps only.  Along the way the block
that waits for a declaration stays what it is: a block that documents nothing,
unless a command in it names the item that it documents.
-/

namespace LuaGloss

namespace Catalog

/-- Whether a block can be handed to a declaration, or names the item that it
documents. -/
def IsWaiting (c : Catalog) (id : BlockId) : Prop :=
  ∃ b, c.docs.block? id = some b ∧ (b.hasTarget = false → b.item = none)

def IsAsFree (b b' : Block) : Prop :=
  (b.hasTarget = false → b.item = none) → b'.hasTarget = false → b'.item = none

theorem IsAsFree.refl (b : Block) : IsAsFree b b := fun h => h

/-- From `c` a run comes to `c'`, and the blocks that can be handed to a
declaration still can. -/
def Advances (c c' : Catalog) : Prop :=
  c.Consistent → c.Reaches c' ∧ ∀ id, c.IsWaiting id → c'.IsWaiting id

namespace Advances

variable (c : Catalog)

theorem refl : c.Advances c := fun _ => ⟨.refl c, fun _ => id⟩

theorem trans {c c' c'' : Catalog} (h : c.Advances c') (h' : c'.Advances c'') :
    c.Advances c'' := by
  intro hc
  obtain ⟨hreaches, hwaiting⟩ := h hc
  obtain ⟨hreaches', hwaiting'⟩ := h' (hreaches.consistent hc)
  exact ⟨hreaches.trans hreaches', fun id hid => hwaiting' id (hwaiting id hid)⟩

theorem of_step {c c' : Catalog} (hstep : c.Consistent → c.Step c')
    (hblocks : c.docs.Blockwise IsAsFree c'.docs) : c.Advances c' := by
  intro hc
  refine ⟨.single (hstep hc), ?_⟩
  rintro id ⟨b, hb, hfree⟩
  obtain ⟨b', hb', hfree'⟩ := hblocks id b hb
  exact ⟨b', hb', hfree' hfree⟩

theorem note (notice : Notice) : c.Advances (c.note notice) :=
  .of_step (fun _ => .note c notice) (.of_blocks IsAsFree.refl rfl)

theorem warn (file : Bytes) (pos : Pos) (what : Warning) :
    c.Advances (c.warn file pos what) :=
  .of_step (fun _ => .warn c file pos what) (.of_blocks IsAsFree.refl rfl)

theorem enqueue (reference : Reference) :
    c.Advances (c.mapDocs (·.enqueue reference)) := by
  refine .of_step (fun _ => .edit (.enqueue c.docs reference) ?_) ?_
  · exact .of_blocks Block.Continues.refl rfl
  · exact .of_blocks IsAsFree.refl rfl

theorem modifyBlock (id : BlockId) {f : Block → Block}
    (hlinks : ∀ b, (f b).links = b.links)
    (hmore : ∀ b : Block, b.Continues (f b))
    (htarget : ∀ b, (f b).hasTarget = false → b.hasTarget = false) :
    c.Advances (c.modifyBlock id f) := by
  apply of_step (fun _ => .modifyBlock c id hlinks hmore)
  refine .modifyBlock IsAsFree.refl id fun b _ hfree h => ?_
  exact (congrArg BlockLinks.item (hlinks b)).trans (hfree (htarget b h))

theorem newBlock (file : Bytes) (pos : Pos) :
    c.Advances (c.newBlock file pos).2 :=
  of_step (fun _ => .newBlock c file pos) (.push IsAsFree.refl rfl)

theorem addFootnote (parent : BlockId) :
    c.Advances (c.mapDocs (·.addFootnote parent)) := by
  apply of_step (fun _ => .footnote c parent)
  change c.docs.Blockwise IsAsFree (c.docs.addFootnote parent)
  unfold Docs.addFootnote
  split
  · exact .of_blocks IsAsFree.refl rfl
  · have hnoted : c.docs.Blockwise IsAsFree (c.docs.modifyBlock parent fun b =>
        { b with footnotes := b.footnotes ++ [c.docs.blocks.size] }) :=
      .modifyBlock IsAsFree.refl parent fun _ _ h => h
    exact hnoted.trans (fun h h' hb => h' (h hb)) (.push IsAsFree.refl rfl)

theorem getGroup (name : Bytes) :
    c.Advances { c with docs := (c.docs.getGroup name).2 } := by
  apply of_step (fun _ => .group c name)
  change c.docs.Blockwise IsAsFree (c.docs.getGroup name).2
  unfold Docs.getGroup
  split
  · exact .of_blocks IsAsFree.refl rfl
  · exact .push IsAsFree.refl rfl

theorem bindTarget (block : BlockId) {item : ItemId} (name : Bytes)
    (hitem : c.Consistent → item < c.declarations.items.size)
    (htarget : ∀ b, c.docs.block? block = some b → b.hasTarget = true) :
    c.Advances (c.bindTarget block item name) := by
  apply of_step (fun hc => .bind block name (hitem hc))
  refine blockwise_bindTarget IsAsFree.refl (fun b hb _ hnone => ?_) name
  simp [htarget b hb] at hnone

theorem setTarget (block : BlockId) (command : Command) (name : Bytes)
    (overload : Int) :
    c.Advances (c.setTarget block command name overload) := by
  have hmarked :
      c.Advances (c.modifyBlock block fun b => { b with hasTarget := true }) :=
    .modifyBlock c block (fun _ => rfl)
      (fun b => { Block.Continues.refl b with }) fun _ h => by simp at h
  unfold Catalog.setTarget
  dsimp only
  split
  next item hitem =>
    apply hmarked.trans
    apply bindTarget
    · intro hc
      exact hc.declarations.findOverload_lt hitem
    · intro b hb
      change (c.docs.modifyBlock block _).block? block = some b at hb
      rw [Docs.block?_modifyBlock, if_pos rfl] at hb
      obtain ⟨before, -, rfl⟩ := Option.map_eq_some_iff.1 hb
      rfl
  next => exact hmarked.trans (.enqueue _ _)

theorem addSeeAlso (block : BlockId) (name : Bytes) :
    c.Advances (c.addSeeAlso block name) := by
  have hadded : c.Advances (c.modifyBlock block fun b =>
      { b with seeAlso := b.seeAlso ++ [⟨name, c.declarations.find name⟩] }) :=
    .modifyBlock c block (fun _ => rfl)
      (fun b => { Block.Continues.refl b with seeAlso := by simp }) fun _ h => h
  unfold Catalog.addSeeAlso
  dsimp only
  split
  · exact hadded
  · exact hadded.trans (.enqueue _ _)

theorem itemBlock {item : ItemId}
    (hitem : c.Consistent → item < c.declarations.items.size) :
    c.Advances (c.itemBlock item).2 := by
  apply of_step (fun hc => .demand (hitem hc))
  rcases c.itemBlock_cases item with ⟨block, -, heq⟩ | ⟨-, file, pos, heq⟩
  · rw [heq]
    exact .of_blocks IsAsFree.refl rfl
  · rw [heq]
    intro id b hb
    have hlt : id < c.docs.blocks.size := (Array.getElem?_eq_some_iff.1 hb).1
    change ∃ b', ((c.docs.addBlock file pos).modifyBlock _ _).block?
      id = some b' ∧ _
    rw [Docs.block?_modifyBlock, if_neg (Nat.ne_of_gt hlt)]
    exact Docs.Blockwise.push IsAsFree.refl rfl id b hb

end Advances

end Catalog

/-! ## Reading the text of a comment -/

namespace Reading

/-- While a comment is read, no other block comes to wait for a declaration. -/
structure Advances (s s' : Reading) : Prop where
  catalog : s.reader.catalog.Advances s'.reader.catalog
  pending : ∀ id, s'.reader.pending = some id → s.reader.pending = some id

namespace Advances

variable (s : Reading)

theorem refl : s.Advances s := ⟨.refl _, fun _ h => h⟩

theorem trans {s s' s'' : Reading} (h : s.Advances s') (h' : s'.Advances s'') :
    s.Advances s'' :=
  ⟨h.catalog.trans h'.catalog, fun id hid => h.pending id (h'.pending id hid)⟩

theorem mapCatalog {s : Reading} {f : Catalog → Catalog}
    (h : s.reader.catalog.Advances (f s.reader.catalog)) :
    s.Advances (s.mapCatalog f) :=
  ⟨h, fun _ hid => hid⟩

theorem warn (what : Warning) : s.Advances (s.warn what) :=
  mapCatalog (.warn _ _ _ _)

theorem openRegion : s.Advances s.openRegion := by
  unfold Reading.openRegion
  split
  · exact .warn s _
  · exact ⟨.refl _, fun _ h => h⟩

theorem closeRegion : s.Advances s.closeRegion := by
  unfold Reading.closeRegion
  split
  · exact .warn s _
  · exact ⟨.refl _, fun _ h => h⟩

theorem startFootnote : s.Advances s.startFootnote :=
  ⟨.addFootnote _ _, fun _ h => h⟩

theorem joinGroup (command : Command) (argument : Bytes) :
    s.Advances (s.joinGroup command argument).1 := by
  unfold Reading.joinGroup
  dsimp only
  split
  · exact .warn s _
  · have hgroup : s.Advances (s.mapCatalog fun c =>
        { c with
          docs := (s.reader.catalog.docs.getGroup (splitWord argument).1).2 }) :=
      mapCatalog (.getGroup _ _)
    apply hgroup.trans
    constructor
    · exact .modifyBlock _ _ (fun _ => rfl)
        (fun b => { Block.Continues.refl b with group := fun _ => rfl })
        fun _ h => h
    · exact fun _ h => h

theorem defineGroup (command : Command) (argument : Bytes) :
    s.Advances (s.defineGroup command argument).1 := by
  unfold Reading.defineGroup
  dsimp only
  split
  · exact .warn s _
  · have hgroup : s.Advances (s.mapCatalog fun c =>
        { c with
          docs := (s.reader.catalog.docs.getGroup (splitWord argument).1).2 }) :=
      mapCatalog (.getGroup _ _)
    apply hgroup.trans
    constructor
    · exact .modifyBlock _ _ (fun _ => rfl)
        (fun b => { Block.Continues.refl b with group := fun h => by simp [h] })
        fun _ h => h
    · intro id hid
      exact (Option.filter_eq_some_iff.1 hid).1

theorem setTarget (command : Command) (argument : Bytes) :
    s.Advances (s.setTarget command argument).1 := by
  unfold Reading.setTarget
  dsimp only
  split
  · exact .warn s _
  · split
    · exact ⟨.setTarget _ _ _ _ _, fun _ h => h⟩
    · exact ⟨.setTarget _ _ _ _ _, fun _ h => h⟩

theorem course {s s' : Reading} (h : s.Course s') : s.Advances s' := by
  induction h with
  | refl s => exact .refl s
  | trans _ _ ih ih' => exact ih.trans ih'
  | warn s what => exact .warn s what
  | toPart s part => exact ⟨.refl _, fun _ h => h⟩
  | write s hf hmore =>
      have hlinks (b : Block) := congrArg Block.links (hf b)
      have htarget (b : Block) := congrArg Block.hasTarget (hf b)
      exact mapCatalog (.modifyBlock _ _ hlinks hmore fun b h =>
        (htarget b).symm.trans h)
  | addSeeAlso s name => exact mapCatalog (.addSeeAlso _ _ name)
  | openRegion s => exact .openRegion s
  | closeRegion s => exact .closeRegion s
  | startFootnote s => exact .startFootnote s
  | joinGroup s command argument => exact .joinGroup s command argument
  | defineGroup s command argument => exact .defineGroup s command argument
  | setTarget s command argument => exact .setTarget s command argument

theorem read (comment : Bytes) :
    s.Advances ((s.addSource comment).readText comment) :=
  .course (.read s comment)

end Advances

end Reading

/-! ## The comment reader -/

namespace CommentReader

structure Ready (r : CommentReader) : Prop where
  catalog : r.catalog.Consistent
  pending : ∀ id, r.pending = some id → r.catalog.IsWaiting id

/-- From a reader that is ready a run comes to another that is ready. -/
def Leads (r r' : CommentReader) : Prop :=
  r.Ready → r.catalog.Reaches r'.catalog ∧ r'.Ready

namespace Leads

variable (r : CommentReader)

theorem refl : r.Leads r := fun hr => ⟨.refl _, hr⟩

theorem trans {r r' r'' : CommentReader} (h : r.Leads r') (h' : r'.Leads r'') :
    r.Leads r'' := by
  intro hr
  obtain ⟨hreaches, hr'⟩ := h hr
  obtain ⟨hreaches', hr''⟩ := h' hr'
  exact ⟨hreaches.trans hreaches', hr''⟩

theorem of_advances {r r' : CommentReader} (h : r.catalog.Advances r'.catalog)
    (hpending : ∀ id, r'.pending = some id → r.pending = some id) :
    r.Leads r' := by
  intro hr
  obtain ⟨hreaches, hwaiting⟩ := h hr.catalog
  exact ⟨hreaches, hreaches.consistent hr.catalog, fun id hid =>
    hwaiting id (hr.pending id (hpending id hid))⟩

theorem mapCatalog {r : CommentReader} {f : Catalog → Catalog}
    (h : r.catalog.Advances (f r.catalog)) : r.Leads (r.mapCatalog f) :=
  .of_advances h fun _ hid => hid

theorem discard : r.Leads r.discard := by
  refine of_advances (.refl r.catalog) ?_
  intro id hid
  simp [CommentReader.discard] at hid

theorem closeRegions (scope : Int) : r.Leads (r.closeRegions scope) :=
  .of_advances (.refl _) fun _ h => h

theorem enterScope (scope : Int) : r.Leads (r.enterScope scope) :=
  (Leads.discard r).trans (.of_advances (.refl _) fun _ h => h)

theorem leaveScope : r.Leads r.leaveScope := by
  have hclosed :
      r.Leads ({ r with scopes := r.scopes.tail }.closeRegions r.currentScope) :=
    .of_advances (.refl _) fun _ h => h
  exact hclosed.trans (.discard _)

theorem startBack (file : Bytes) (pos : Pos) {item : ItemId}
    (hitem : item < r.catalog.declarations.items.size) :
    r.catalog.Advances (r.startBack file pos item).reader.catalog := by
  apply (Catalog.Advances.itemBlock r.catalog fun _ => hitem).trans
  apply Catalog.Advances.modifyBlock
  · intro b
    split <;> rfl
  · intro b
    split <;> exact { Block.Continues.refl b with }
  · intro b h
    split at h <;> exact h

theorem readBack (comment file : Bytes) (pos : Pos) {item : ItemId}
    (hitem : item < r.catalog.declarations.items.size) :
    r.Leads (r.readBack comment file pos item) := by
  have hread := Reading.Advances.read (r.startBack file pos item) comment
  exact .of_advances ((startBack r file pos hitem).trans hread.catalog)
    hread.pending

theorem noteDropped : r.Leads r.noteDropped := by
  unfold CommentReader.noteDropped
  split
  · split
    · exact .refl r
    · exact mapCatalog (.note _ _)
  · exact .refl r

theorem startNew (file : Bytes) (pos : Pos) :
    r.Leads (r.startNew file pos).reader := by
  apply (noteDropped r).trans
  intro hr
  have hadvances := Catalog.Advances.newBlock r.noteDropped.catalog file pos
  obtain ⟨hreaches, -⟩ := hadvances hr.catalog
  refine ⟨hreaches, hreaches.consistent hr.catalog, ?_⟩
  intro id hid
  obtain rfl : r.noteDropped.catalog.docs.blocks.size = id := Option.some.inj hid
  refine ⟨{ kind := .normal, file, pos }, ?_, fun _ => rfl⟩
  change (r.noteDropped.catalog.docs.blocks.push
    _)[r.noteDropped.catalog.docs.blocks.size]? = _
  simp

theorem readAhead (comment file : Bytes) (pos : Pos) (continues : Bool) :
    r.Leads (r.readAhead comment file pos continues) := by
  have hresume (s : Reading) (h : r.Leads s.reader) :
      r.Leads { ((s.addSource comment).readText comment).reader with
        resume := some ((s.addSource comment).readText comment).place } := by
    have hread := Reading.Advances.read s comment
    exact h.trans (.of_advances hread.catalog hread.pending)
  unfold CommentReader.readAhead
  dsimp only
  split
  · exact hresume _ (.refl r)
  · exact hresume _ (startNew r file pos)

theorem offered {r : CommentReader} (hr : r.Ready) {id : BlockId}
    (h : r.offered? = some id) :
    ∃ b, r.catalog.docs.block? id = some b ∧ b.item = none := by
  obtain ⟨hpending, htarget⟩ := Option.filter_eq_some_iff.1 h
  obtain ⟨b, hb, hfree⟩ := hr.pending id hpending
  exact ⟨b, hb, hfree (by simpa [hb] using htarget)⟩

theorem takeBlock (hr : r.Ready) :
    r.catalog.Reaches r.takeBlock.2.catalog ∧ r.takeBlock.2.pending = none ∧
      r.takeBlock.2.catalog.declarations = r.catalog.declarations ∧
      ∀ id, r.takeBlock.1 = some id →
      ∃ b, r.takeBlock.2.catalog.docs.block? id = some b ∧ b.item = none := by
  have hgrouped (c : Catalog) (id : BlockId) (group : GroupId) (b : Block)
      (hb : c.docs.block? id = some b)
      (hfree : b.item = none) :
      c.Step (c.modifyBlock id fun b =>
        { b with group := b.group.or (some group) }) ∧
        ∃ b', (c.modifyBlock id fun b =>
          { b with group := b.group.or (some group) }).docs.block? id = some b' ∧
          b'.item = none := by
    refine ⟨.modifyBlock c id (fun _ => rfl) fun b => ?_,
      { b with group := b.group.or (some group) }, ?_, hfree⟩
    · exact { Block.Continues.refl b with group := fun _ => by simp }
    change (c.docs.modifyBlock id _).block? id = _
    rw [Docs.block?_modifyBlock, if_pos rfl, hb]
    rfl
  unfold CommentReader.takeBlock
  dsimp only
  split
  next => exact ⟨.refl _, rfl, rfl, fun _ => offered hr⟩
  next group hgroup =>
    cases hoffer : r.offered? with
    | some id =>
        obtain ⟨b, hb, hfree⟩ := offered hr hoffer
        obtain ⟨hstep, hblock⟩ := hgrouped r.catalog id group b hb hfree
        refine ⟨.single hstep, rfl, rfl, ?_⟩
        rintro _ ⟨⟩
        exact hblock
    | none =>
        have hnew :
            (r.catalog.newBlock [] .none).2.docs.block?
              r.catalog.docs.blocks.size =
            some { kind := .normal, file := [], pos := .none } := by
          change (r.catalog.docs.blocks.push _)[r.catalog.docs.blocks.size]? = _
          simp
        obtain ⟨hstep, hblock⟩ := hgrouped _ _ group _ hnew rfl
        refine ⟨(Catalog.Reaches.single (.newBlock r.catalog [] .none)).tail
          hstep, rfl, rfl, ?_⟩
        rintro _ ⟨⟩
        exact hblock

theorem catalog_declare (item : Item) :
    (r.declare item).2.catalog = r.takeBlock.2.catalog.declared item
      r.takeBlock.1 := by
  unfold CommentReader.declare
  dsimp only
  split
  next id hid => rw [hid]; rfl
  next hid => rw [hid]; rfl

theorem declare {item : Item} (hitem : r.catalog.declarations.Accepts item) :
    r.Leads (r.declare item).2 := by
  intro hr
  obtain ⟨hreaches, hpending, hdeclarations, hblock⟩ := takeBlock r hr
  have hstep : r.takeBlock.2.catalog.Step (r.declare item).2.catalog := by
    rw [catalog_declare]
    exact .declare (hdeclarations ▸ hitem) hblock
  have hnone : (r.declare item).2.pending = none := by
    unfold CommentReader.declare
    dsimp only
    split <;> exact hpending
  have hall := hreaches.tail hstep
  refine ⟨hall, hall.consistent hr.catalog, ?_⟩
  intro id hid
  rw [hnone] at hid
  simp at hid

end Leads

/-! ## What a declaration does to the declarations -/

theorem declarations_takeBlock (r : CommentReader) :
    r.takeBlock.2.catalog.declarations = r.catalog.declarations := by
  unfold takeBlock
  dsimp only
  split
  · rfl
  · cases r.offered? <;> rfl

theorem fst_declare (r : CommentReader) (item : Item) :
    (r.declare item).1 = r.catalog.declarations.items.size := by
  rw [← r.declarations_takeBlock]
  unfold declare
  dsimp only
  split <;> rfl

theorem declarations_declare (r : CommentReader) (item : Item) :
    (r.declare item).2.catalog.declarations = r.catalog.declarations.add item := by
  rw [Leads.catalog_declare, Catalog.declarations_declared, declarations_takeBlock]

end CommentReader

end LuaGloss

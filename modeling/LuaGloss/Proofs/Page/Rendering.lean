import LuaGloss.Proofs.Catalog.Finalize

/-!
# The catalog while pages are written

Writing pages changes the catalog only where something was left open: an item
without documentation gets an empty block, a block without a reference id gets
one, and there may be warnings.  So everything that decides what is shown stays
as it is, and an id that has been given out is final.
-/

namespace LuaGloss

/-- The block that an item gets when it is asked for and there is none says
nothing. -/
def Block.IsBlank (b : Block) : Prop :=
  b.isEmpty = true ∧ b.tags = [] ∧ b.hasTarget = false ∧ b.footnotes = []

namespace Catalog

inductive RenderStep : Catalog → Catalog → Prop
  | demand {c : Catalog} {item : ItemId} :
      item < c.declarations.items.size → RenderStep c (c.itemBlock item).2
  | refId {c : Catalog} {block : BlockId} {b : Block} {wanted : Bytes} :
      c.docs.block? block = some b → b.refId = none → Xml.isId wanted = true →
      RenderStep c (c.giveRefId block wanted).2
  | warn (c : Catalog) (file : Bytes) (pos : Pos) (what : Warning) :
      RenderStep c (c.warn file pos what)

def Renders : Catalog → Catalog → Prop := Relation.ReflTransGen RenderStep

theorem RenderStep.step {c c' : Catalog} (h : c.RenderStep c') : c.Step c' := by
  cases h with
  | demand hitem => exact .demand hitem
  | refId hblock hrefId hwanted => exact .refId hblock hrefId hwanted
  | warn file pos what => exact .warn _ _ _ _

theorem Renders.reaches {c c' : Catalog} (h : c.Renders c') : c.Reaches c' := by
  induction h with
  | refl => exact .refl c
  | tail _ hstep ih => exact ih.tail hstep.step

/-- The catalog `c'` says what `c` says, with more blocks and more reference
ids. -/
structure Refines (c c' : Catalog) : Prop where
  vocabulary : c'.vocabulary = c.vocabulary
  declarations : c'.declarations = c.declarations
  language : c'.docs.language = c.docs.language
  isFinal : c'.docs.isFinal = c.docs.isFinal
  groups : c'.docs.groups = c.docs.groups
  listedGroups : c'.docs.listedGroups = c.docs.listedGroups
  block : ∀ id b, c.docs.block? id = some b →
    ∃ refId, c'.docs.block? id = some { b with refId } ∧
    ∀ given, b.refId = some given → refId = some given
  attached : ∀ item block, c.docs.blockOf? item = some block →
    c'.docs.blockOf? item = some block
  blank : ∀ item block, c.docs.blockOf? item = none →
    c'.docs.blockOf? item = some block →
    ∃ b, c'.docs.block? block = some b ∧ b.IsBlank

namespace Refines

theorem refl (c : Catalog) : c.Refines c where
  vocabulary := rfl
  declarations := rfl
  language := rfl
  isFinal := rfl
  groups := rfl
  listedGroups := rfl
  block _ b hb := ⟨b.refId, hb, fun _ h => h⟩
  attached _ _ h := h
  blank _ _ hnone hsome := by simp [hnone] at hsome

theorem trans {c c' c'' : Catalog} (h : c.Refines c') (h' : c'.Refines c'') :
    c.Refines c'' where
  vocabulary := h'.vocabulary.trans h.vocabulary
  declarations := h'.declarations.trans h.declarations
  language := h'.language.trans h.language
  isFinal := h'.isFinal.trans h.isFinal
  groups := h'.groups.trans h.groups
  listedGroups := h'.listedGroups.trans h.listedGroups
  block id b hb := by
    obtain ⟨refId, hb', hkept⟩ := h.block id b hb
    obtain ⟨refId', hb'', hkept'⟩ := h'.block id _ hb'
    exact ⟨refId', hb'', fun given hgiven => hkept' given (hkept given hgiven)⟩
  attached item block hblock :=
    h'.attached item block (h.attached item block hblock)
  blank item block hnone hsome := by
    cases hmid : c'.docs.blockOf? item with
    | none => exact h'.blank item block hmid hsome
    | some other =>
        obtain rfl : other = block :=
          Option.some.inj ((h'.attached item other hmid).symm.trans hsome)
        obtain ⟨b, hb, hblank⟩ := h.blank item other hnone hmid
        obtain ⟨refId, hb', -⟩ := h'.block other b hb
        exact ⟨_, hb', hblank⟩

theorem addBlank (c : Catalog) {item : ItemId}
    (hnone : c.docs.blockOf? item = none) (file : Bytes) (pos : Pos) :
    c.Refines (c.mapDocs fun d =>
      (d.addBlock file pos).attach item d.blocks.size) where
  vocabulary := rfl
  declarations := rfl
  language := rfl
  isFinal := rfl
  groups := rfl
  listedGroups := rfl
  block id b hb := by
    have hlt : id < c.docs.blocks.size := (Array.getElem?_eq_some_iff.1 hb).1
    refine ⟨b.refId, ?_, fun _ h => h⟩
    change ((c.docs.addBlock file pos).modifyBlock c.docs.blocks.size _).block?
      id = some b
    rw [Docs.block?_modifyBlock, if_neg (Nat.ne_of_gt hlt)]
    change (c.docs.blocks.push _)[id]? = some b
    rw [Array.getElem?_push, if_neg (Nat.ne_of_lt hlt)]
    exact hb
  attached other block hblock := by
    have hne : other ≠ item := by
      rintro rfl
      simp [hnone] at hblock
    exact ((c.docs.addBlock file pos).blockOf?_attach item other _).trans
      ((if_neg hne).trans hblock)
  blank other block hother hblock := by
    have hattach :=
      (c.docs.addBlock file pos).blockOf?_attach item other c.docs.blocks.size
    by_cases heq : other = item
    · rw [if_pos heq] at hattach
      obtain rfl : c.docs.blocks.size = block :=
        Option.some.inj (hattach.symm.trans hblock)
      refine ⟨{ kind := .normal, file, pos, item := some item }, ?_, rfl,
        rfl, rfl, rfl⟩
      change ((c.docs.addBlock file pos).modifyBlock c.docs.blocks.size
        _).block? c.docs.blocks.size = _
      rw [Docs.block?_modifyBlock, if_pos rfl]
      change Option.map _ (c.docs.blocks.push _)[c.docs.blocks.size]? = _
      simp
    · rw [if_neg heq] at hattach
      have hnone' := hattach.symm.trans hblock
      change c.docs.blockOf? other = some block at hnone'
      simp [hother] at hnone'

theorem giveRefId {c : Catalog} {block : BlockId} {b : Block}
    (hb : c.docs.block? block = some b) (hnone : b.refId = none)
    (wanted : Bytes) : c.Refines (c.giveRefId block wanted).2 := by
  have hrest := (c.docs.freshId_fresh wanted).rest
  have hdocs : (c.giveRefId block wanted).2.docs =
      (c.docs.freshId wanted).2.modifyBlock block fun b =>
        { b with refId := some (c.docs.freshId wanted).1 } := rfl
  have hblockOf (item : ItemId) :
      (c.giveRefId block wanted).2.docs.blockOf? item = c.docs.blockOf? item := by
    rw [hdocs, hrest]
    rfl
  constructor
  · rfl
  · rfl
  · rw [hdocs, hrest]
    rfl
  · rw [hdocs, hrest]
    rfl
  · rw [hdocs, hrest]
    rfl
  · rw [hdocs, hrest]
    rfl
  · intro id other hother
    have hfresh : (c.docs.freshId wanted).2.block? id = c.docs.block? id := by
      rw [hrest]
      rfl
    rw [hdocs, Docs.block?_modifyBlock, hfresh, hother]
    split
    next heq =>
      obtain rfl : b = other := by
        rw [heq, hother] at hb
        exact (Option.some.inj hb).symm
      refine ⟨_, rfl, ?_⟩
      intro given hgiven
      simp [hnone] at hgiven
    next => exact ⟨other.refId, rfl, fun _ h => h⟩
  · intro item other hother
    rw [hblockOf]
    exact hother
  · intro item other hitem hother
    rw [hblockOf, hitem] at hother
    simp at hother

end Refines

theorem RenderStep.refines {c c' : Catalog} (h : c.RenderStep c') :
    c.Refines c' := by
  cases h with
  | @demand item hitem =>
      rcases c.itemBlock_cases item with ⟨block, -, heq⟩ | ⟨hnone, file, pos, heq⟩
      · rw [heq]
        exact .refl c
      · rw [heq]
        exact .addBlank c hnone file pos
  | refId hb hnone _ => exact .giveRefId hb hnone _
  | warn file pos what =>
      refine ⟨rfl, rfl, rfl, rfl, rfl, rfl, fun _ b hb =>
        ⟨b.refId, hb, fun _ h => h⟩, fun _ _ h => h, ?_⟩
      intro item block hnone hsome
      change c.docs.blockOf? item = some block at hsome
      simp [hnone] at hsome

namespace Renders

variable {c c' c'' : Catalog}

theorem refl (c : Catalog) : c.Renders c := Relation.ReflTransGen.refl

theorem trans (h : c.Renders c') (h' : c'.Renders c'') : c.Renders c'' :=
  Relation.ReflTransGen.trans h h'

theorem single (h : c.RenderStep c') : c.Renders c' :=
  Relation.ReflTransGen.single h

theorem refines (h : c.Renders c') : c.Refines c' := by
  induction h with
  | refl => exact .refl c
  | tail _ hstep ih => exact ih.trans hstep.refines

theorem consistent (h : c.Renders c') (hc : c.Consistent) : c'.Consistent :=
  h.reaches.consistent hc

end Renders

end Catalog

/-! ## What stays as it is -/

theorem Vocabulary.classify_nil (v : Vocabulary) : v.classify [] = .normal := by
  have hmarks (command : CustomCommand) : command.marks [] = false := by
    unfold CustomCommand.marks
    cases htag : command.tag with
    | nil => simp
    | cons b rest => simp [Bytes.contains, Bytes.cut]
  have hnone : v.commands.find? (·.marks []) = none := by simp [hmarks]
  simp [classify, hnone]

namespace Catalog

namespace Refines

variable {c c' : Catalog} (h : c.Refines c')

include h

/-- What is true of an item's block before and after, if it does not depend on
the reference id and is not true of a blank block. -/
theorem any_blockOf? {p : Block → Bool}
    (hp : ∀ b refId, p { b with refId } = p b)
    (hblank : ∀ b, b.IsBlank → p b = false) (hc : c.Consistent) (item : ItemId) :
    (c'.blockOf? item).any p = (c.blockOf? item).any p := by
  unfold Catalog.blockOf?
  cases hitem : c.docs.blockOf? item with
  | some block =>
      obtain ⟨links, hlinks, -⟩ := hc.docs.attached.item item block hitem
      obtain ⟨b, hb, -⟩ := Option.map_eq_some_iff.1 hlinks
      obtain ⟨refId, hb', -⟩ := h.block block b hb
      simp [h.attached item block hitem, hb, hb', hp]
  | none =>
      cases hitem' : c'.docs.blockOf? item with
      | none => rfl
      | some block =>
          obtain ⟨b, hb, hb'⟩ := h.blank item block hitem hitem'
          simp [hb, hblank b hb']

theorem item? (id : ItemId) : c'.item? id = c.item? id := by
  unfold Catalog.item?
  rw [h.declarations]

theorem kindOf (hc : c.Consistent) (id : ItemId) : c'.kindOf id = c.kindOf id := by
  unfold Catalog.kindOf
  rw [h.item?, h.vocabulary]
  cases hinit : (c.item? id).bind (·.init?) with
  | none => rfl
  | some init =>
      unfold Catalog.blockOf?
      cases hid : c.docs.blockOf? id with
      | some block =>
          obtain ⟨links, hlinks, -⟩ := hc.docs.attached.item id block hid
          obtain ⟨b, hb, -⟩ := Option.map_eq_some_iff.1 hlinks
          obtain ⟨refId, hb', -⟩ := h.block block b hb
          simp [h.attached id block hid, hb, hb']
      | none =>
          -- A new block has no tags, and without tags the item is plain, as it
          -- is without a block.
          cases hid' : c'.docs.blockOf? id with
          | none => rfl
          | some block =>
              obtain ⟨b, hb, -, htags, -⟩ := h.blank id block hid hid'
              simp [hb, htags, Vocabulary.classify_nil]

theorem isLineRendered (hc : c.Consistent) (line : List ItemId) :
    c'.isLineRendered line = c.isLineRendered line := by
  induction line with
  | nil => rfl
  | cons id owners ih =>
      have hoverload : c'.isDocumentedOverload id = c.isDocumentedOverload id :=
        h.any_blockOf? (fun _ _ => rfl) (fun b hb => by simp [hb.2.2.1]) hc id
      have hempty :
          (c'.blockOf? id).any (!·.isEmpty) = (c.blockOf? id).any (!·.isEmpty) :=
        h.any_blockOf? (fun _ _ => rfl) (fun b hb => by simp [hb.1]) hc id
      unfold Catalog.isLineRendered
      rw [h.item?]
      cases c.item? id with
      | none => rfl
      | some item =>
          simp only [hoverload, ih]
          congr 2
          congr 1
          cases owners with
          | nil => rfl
          | cons owner rest => simp only [h.item?, h.kindOf hc, hempty]

theorem isRendered (hc : c.Consistent) (id : ItemId) :
    c'.isRendered id = c.isRendered id := by
  unfold Catalog.isRendered
  rw [h.declarations]
  exact h.isLineRendered hc _

end Refines

end Catalog

end LuaGloss

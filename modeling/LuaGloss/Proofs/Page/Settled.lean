import LuaGloss.Proofs.Page.Parts
import LuaGloss.Proofs.Page.View

/-!
# Parts of pages are settled

A part of a page that has been put together is what its view says, and stays so:
later blocks and ids do not change what has been read.  So a page can be put
together in any order and any number of times.  What is shown in the part has
got an id on the way.
-/

namespace LuaGloss

namespace Catalog

/-- The view has the given value, now and when there are more blocks and ids. -/
def Settles (c : Catalog) (view : Catalog → α) (a : α) : Prop :=
  ∀ c', c.Refines c' → view c' = a

theorem Settles.eq {c : Catalog} {view : Catalog → α} {a : α}
    (h : c.Settles view a) : view c = a := h c (.refl c)

theorem Settles.mono {c c' : Catalog} {view : Catalog → α} {a : α}
    (h : c.Settles view a) (hrefines : c.Refines c') : c'.Settles view a :=
  fun c'' hrefines' => h c'' (hrefines.trans hrefines')

def Keeps (c : Catalog) (id : BlockId) (b : Block) : Prop :=
  ∃ refId, c.docs.block? id = some { b with refId }

theorem Keeps.of_block? {c : Catalog} {id : BlockId} {b : Block}
    (h : c.docs.block? id = some b) : c.Keeps id b :=
  ⟨b.refId, h⟩

theorem Keeps.mono {c c' : Catalog} {id : BlockId} {b : Block}
    (h : c.Keeps id b) (hrefines : c.Refines c') : c'.Keeps id b := by
  obtain ⟨given, hb⟩ := h
  obtain ⟨refId, hb', -⟩ := hrefines.block id _ hb
  exact ⟨refId, hb'⟩

theorem Keeps.notes {c : Catalog} {id : BlockId} {b : Block} (h : c.Keeps id b) :
    c.notes (some id) = b.footnotes.map fun note => (.member, .footnote note) := by
  obtain ⟨refId, hb⟩ := h
  simp [Catalog.notes, hb]

end Catalog

/-! ## What is the same in a refined catalog -/

theorem Vocabulary.baseType_nil (v : Vocabulary) : v.baseType [] = [] := by
  have hcut (sep : Bytes) (h : sep ≠ []) : Bytes.cut sep [] = none := by
    cases sep with
    | nil => exact (h rfl).elim
    | cons b rest => simp [Bytes.cut]
  have hempty (command : CustomCommand) : (command.baseType? []).getD [] = [] := by
    unfold CustomCommand.baseType?
    split
    · split
      · rfl
      next before after _ =>
        by_cases hbefore : before = []
        · rw [hbefore]
          by_cases hafter : after = []
          · simp [hafter, Bytes.cut]
          · simp [hafter, Bytes.cut]
        · rw [hcut before hbefore]
          rfl
    · rfl
  unfold baseType
  induction v.commands with
  | nil => rfl
  | cons command commands ih =>
      rw [List.findSome?_cons]
      cases hfirst : command.baseType? [] with
      | none => exact ih
      | some base => simpa [hfirst] using hempty command

namespace Catalog

namespace Refines

variable {c c' : Catalog} (h : c.Refines c')

include h

theorem innerElement (hc : c.Consistent) (id : ItemId) :
    c'.innerElement id = c.innerElement id := by
  unfold Catalog.innerElement
  rw [h.kindOf hc]

theorem baseTypeOf (hc : c.Consistent) (id : ItemId) :
    c'.baseTypeOf id = c.baseTypeOf id := by
  unfold Catalog.baseTypeOf Catalog.blockOf?
  cases hid : c.docs.blockOf? id with
  | some block =>
      obtain ⟨b, hb, -⟩ := block?_of_blockOf? hc hid
      obtain ⟨refId, hb', -⟩ := h.block block b hb
      simp [h.attached id block hid, hb, hb', h.vocabulary]
  | none =>
      -- A new block has no tags, and without tags there is no base type.
      cases hid' : c'.docs.blockOf? id with
      | none => rfl
      | some block =>
          obtain ⟨b, hb, -, htags, -⟩ := h.blank id block hid hid'
          simp [hb, htags, Vocabulary.baseType_nil]

theorem filter_isRendered (hc : c.Consistent) (item : Option ItemId) :
    item.filter c'.isRendered = item.filter c.isRendered := by
  rw [funext (h.isRendered hc)]

theorem blockNumber {item : ItemId} {block : BlockId}
    (hitem : c.docs.blockOf? item = some block) :
    c'.blockNumber item = block := by
  simp [Catalog.blockNumber, h.attached item block hitem]

end Refines

end Catalog

/-! ## Putting parts together -/

namespace Page

open LuaGloss.Xml

/-- From `c` the action puts together what the view says, which is settled then,
and gives ids to what is shown. -/
def Puts (action : CatalogM α) (c : Catalog) (view : Catalog → α)
    (shown : List (Form × Entity)) : Prop :=
  Yields action c fun a c' => c'.Settles view a ∧ c'.Names shown

namespace Puts

variable {action : CatalogM α} {c : Catalog} {view view' : Catalog → α}
  {shown shown' : List (Form × Entity)}

theorem assuming (h : c.Consistent → Puts action c view shown) :
    Puts action c view shown := Yields.assuming h

theorem pure (a : α) (c : Catalog) : Puts (Pure.pure a) c (fun _ => a) [] :=
  Yields.pure ⟨fun _ _ => rfl, nofun⟩

theorem get_bind {next : Catalog → CatalogM α} (h : Puts (next c) c view shown) :
    Puts (get >>= next) c view shown := h

theorem bind {next : α → CatalogM β} {view' : α → Catalog → β}
    (h : Puts action c view shown)
    (hnext : ∀ a c', c.Renders c' → Puts (next a) c' (view' a) shown') :
    Puts (action >>= next) c (fun c => view' (view c) c) (shown ++ shown') := by
  apply Yields.andThen h
  intro a c₁ hrenders _ ⟨hview, hnames⟩ hc₁
  obtain ⟨hrenders', hview', hnames'⟩ := hnext a c₁ hrenders hc₁
  refine ⟨hrenders', ?_,
    Catalog.names_append.2 ⟨hnames.mono hrenders'.refines, hnames'⟩⟩
  intro c' hrefines
  dsimp only
  rw [hview c' (hrenders'.refines.trans hrefines)]
  exact hview' c' hrefines

theorem congr (h : Puts action c view shown)
    (hview : ∀ c', c.Refines c' → view' c' = view c')
    (hshown : ∀ e ∈ shown', e ∈ shown) : Puts action c view' shown' := by
  intro hc
  obtain ⟨hrenders, hsettles, hnames⟩ := h hc
  refine ⟨hrenders, ?_, fun e he => hnames e (hshown e he)⟩
  exact fun c' hrefines =>
    (hview c' (hrenders.refines.trans hrefines)).trans (hsettles c' hrefines)

theorem mapM {f : α → CatalogM β} {view : α → Catalog → β}
    {shown : α → List (Form × Entity)} (as : List α) (c : Catalog)
    (h : ∀ a ∈ as, ∀ c', c.Renders c' → Puts (f a) c' (view a) (shown a)) :
    Puts (as.mapM f) c (fun c => as.map (view · c)) (as.flatMap shown) := by
  induction as generalizing c with
  | nil => exact .pure [] c
  | cons a as ih =>
      rw [List.mapM_cons]
      refine .congr ((h a (by simp) c (.refl c)).bind fun b c₁ h₁ =>
        (ih c₁ ?_).bind fun bs c₂ _ => .pure (b :: bs) c₂)
        (fun _ _ => rfl) (by simp)
      exact fun a' ha' c' h' => h a' (by simp [ha']) c' (h₁.trans h')

theorem reads {f : Catalog → α} (h : ∀ c', c.Refines c' → f c' = f c) :
    Puts (do return f (← get)) c f [] :=
  (Puts.pure (f c) c).congr h nofun

theorem itemBlockOf {next : BlockId → CatalogM α} {id : ItemId}
    (hid : id < c.declarations.items.size)
    (hnext : ∀ own c', c.Renders c' → c'.Consistent →
      c'.docs.blockOf? id = some own → Puts (next own) c' view shown) :
    Puts (Page.itemBlockOf id >>= next) c view shown :=
  Yields.andThen (yields_itemBlockOf hid) fun own c' h hc' hown =>
    hnext own c' h hc' hown

end Puts

/-! ## Ids and descriptions -/

theorem puts_refIdOf {c : Catalog} {entity : Entity} {own : BlockId} {b : Block}
    (hown : c.ownBlock? entity = some own) (hb : c.Keeps own b) (form : Form) :
    Puts (refIdOf own) c (·.givenId own) [(form, entity)] := by
  obtain ⟨given, hb⟩ := hb
  intro hc
  obtain ⟨hrenders, hrefId⟩ := yields_refIdOf hown hb hc
  refine ⟨hrenders, ?_, by simp [Catalog.Names, hrefId]⟩
  intro c' hrefines
  have hglobal : entity ≠ .global := by
    rintro rfl
    simp [Catalog.ownBlock?] at hown
  have hgiven := hrefines.refIdOf? hrefId
  rw [Catalog.refIdOf?_eq c' hglobal,
    (hrenders.refines.trans hrefines).ownBlock? hown] at hgiven
  exact congrArg (Option.getD · []) hgiven

theorem puts_itemRefIdOf {c : Catalog} {item : ItemId}
    (hitem : item < c.declarations.items.size) :
    Puts (itemRefIdOf item) c (·.givenItemId item) [] := by
  have hsplit : itemRefIdOf item = (do refIdOf (← itemBlockOf item)) := rfl
  rw [hsplit]
  apply Puts.itemBlockOf hitem
  intro own c₁ _ hc₁ hown
  obtain ⟨b, hb, -⟩ := Catalog.block?_of_blockOf? hc₁ hown
  have hentity : c₁.ownBlock? (.item item) = some own := hown
  refine (puts_refIdOf hentity (.of_block? hb) .member).congr ?_ nofun
  intro c' hrefines
  exact congrArg c'.givenId (hrefines.blockNumber hown)

theorem puts_seeAlsoElement (c : Catalog) (see : SeeAlso) :
    Puts (seeAlsoElement see) c (View.seeAlso · see) [] := by
  apply Puts.assuming
  intro hc
  unfold seeAlsoElement
  apply Puts.get_bind
  split
  next hnone =>
    refine (Puts.pure _ c).congr ?_ (by simp)
    intro c' hrefines
    simp only [View.seeAlso, hrefines.filter_isRendered hc, hnone]
  next item hitem =>
    have hrendered := (Option.filter_eq_some_iff.1 hitem).2
    refine .congr
      ((puts_itemRefIdOf (Catalog.lt_size_of_isRendered hrendered)).bind
        fun _ _ _ => .pure _ _) ?_ (by simp)
    intro c' hrefines
    simp only [View.seeAlso, hrefines.filter_isRendered hc, hitem,
      hrefines.innerElement hc]

theorem puts_seeAlsoElements (c : Catalog) (seeAlso : List SeeAlso) :
    Puts (seeAlsoElements seeAlso) c (View.references · seeAlso) [] := by
  unfold seeAlsoElements
  split
  next hempty =>
    refine (Puts.pure _ c).congr ?_ nofun
    intro c' _
    simp only [View.references, if_pos hempty]
  next hsome =>
    have hall := Puts.mapM seeAlso c fun see _ c' _ => puts_seeAlsoElement c' see
    refine .congr (hall.bind fun _ _ _ => .pure _ _) ?_ nofun
    intro c' _
    simp only [View.references, if_neg hsome]

theorem puts_description {c : Catalog} {id : BlockId} {b : Block}
    (hb : c.Keeps id b) :
    Puts (description id) c (View.description · id) [] := by
  have hkeeps := hb
  obtain ⟨given, hb⟩ := hb
  unfold description
  apply Puts.get_bind
  rw [hb]
  refine .congr ((puts_seeAlsoElements c b.seeAlso).bind fun _ _ _ =>
    .pure _ _) ?_ nofun
  intro c' hrefines
  obtain ⟨refId, hb'⟩ := hkeeps.mono hrefines
  simp only [View.description, hb']

theorem puts_footnote {c : Catalog} {note : BlockId} {b : Block}
    (hb : c.Keeps note b) :
    Puts (footnote note) c (View.footnote · note) [(.member, .footnote note)] := by
  have hown : c.ownBlock? (.footnote note) = some note := rfl
  unfold footnote
  exact .congr ((puts_refIdOf hown hb .member).bind fun _ _ h₁ =>
    (puts_description (hb.mono h₁.refines)).bind fun _ _ _ => .pure _ _)
      (fun _ _ => rfl) (by simp)

theorem puts_footnotes {c : Catalog} {own : BlockId} {b : Block}
    (hb : c.Keeps own b) :
    Puts (footnotes own) c (View.footnotes · own)
      (b.footnotes.map fun note => (.member, .footnote note)) := by
  apply Puts.assuming
  intro hc
  have hkeeps := hb
  obtain ⟨given, hb⟩ := hb
  have hall := Puts.mapM b.footnotes c fun note hnote c' hrenders => by
    obtain ⟨b', hb', -⟩ := Catalog.block?_of_footnote hc hb hnote
    exact puts_footnote ((Catalog.Keeps.of_block? hb').mono hrenders.refines)
  unfold footnotes
  apply Puts.get_bind
  rw [hb]
  refine .congr (hall.bind fun _ _ _ => .pure _ _) ?_ (by simp)
  intro c' hrefines
  obtain ⟨refId, hb'⟩ := hkeeps.mono hrefines
  simp only [View.footnotes, hb', List.flatMap_def]

/-! ## Members -/

section

variable {c : Catalog} {id : ItemId} {own : BlockId} {b : Block}
  (hown : c.docs.blockOf? id = some own) (hb : c.Keeps own b)

include hown hb

theorem puts_member (build : Bytes → List Xml → List Xml → β) :
    Puts (do
      let refId ← refIdOf own
      let text ← description own
      let notes ← footnotes own
      return build refId text notes) c
      (fun c =>
        build (c.givenId own) (View.description c own) (View.footnotes c own))
      ((.member, .item id) :: b.footnotes.map fun note =>
        (.member, .footnote note)) := by
  have hentity : c.ownBlock? (.item id) = some own := hown
  exact .congr ((puts_refIdOf hentity hb .member).bind fun _ _ h₁ =>
    (puts_description (hb.mono h₁.refines)).bind fun _ _ h₂ =>
      (puts_footnotes (hb.mono (h₁.trans h₂).refines)).bind fun _ _ _ =>
        .pure _ _) (fun _ _ => rfl) (by simp)

theorem puts_functionParts (item : Item) (signature : Signature) (name : Bytes) :
    Puts (functionParts item signature name own) c
      (View.functionParts · item signature name own)
      ((.member, .item id) :: b.footnotes.map fun note =>
        (.member, .footnote note)) :=
  puts_member hown hb _

theorem puts_variableParts (item : Item) (init : Value) (name : Bytes) :
    Puts (variableParts item init name own) c
      (View.variableParts · item init name own)
      ((.member, .item id) :: b.footnotes.map fun note =>
        (.member, .footnote note)) :=
  puts_member hown hb _

end

theorem puts_enumValue {c : Catalog} {id : ItemId}
    (hid : id < c.declarations.items.size) :
    Puts (enumValue id) c (View.enumValue · id) [(.value, .item id)] := by
  obtain ⟨item, hitem⟩ : ∃ item, c.item? id = some item :=
    Option.isSome_iff_exists.1 (Declarations.item?_isSome.2 hid)
  unfold enumValue
  apply Puts.get_bind
  rw [hitem]
  apply Puts.itemBlockOf hid
  intro own c₁ h₁ hc₁ hown
  obtain ⟨b, hb, -⟩ := Catalog.block?_of_blockOf? hc₁ hown
  have hentity : c₁.ownBlock? (.item id) = some own := hown
  refine .congr ((puts_refIdOf hentity (.of_block? hb) .value).bind fun _ _ h₂ =>
    (puts_description ((Catalog.Keeps.of_block? hb).mono h₂.refines)).bind
      fun _ _ _ => .pure _ _) ?_ (by simp)
  intro c' hrefines
  have hitem' : c'.item? id = some item :=
    ((h₁.refines.trans hrefines).item? id).trans hitem
  simp only [View.enumValue, hitem', Catalog.givenItemId,
    hrefines.blockNumber hown]

theorem puts_enumParts {c : Catalog} {id : ItemId} {own : BlockId} {b : Block}
    (hown : c.docs.blockOf? id = some own) (hb : c.Keeps own b) (item : Item)
    {fields : List ItemId}
    (hfields : ∀ field ∈ fields, field < c.declarations.items.size)
    (name : Bytes) :
    Puts (enumParts item fields name own) c (View.enumParts · item fields name own)
      ((.member, .item id) :: (fields.map fun field => (.value, .item field)) ++
        b.footnotes.map fun note => (.member, .footnote note)) := by
  have hentity : c.ownBlock? (.item id) = some own := hown
  have hvalues {c₁ : Catalog} (h₁ : c.Renders c₁) : Puts (fields.mapM enumValue) c₁
      (fun c => fields.map (View.enumValue c)) (fields.map fun field =>
        (.value, .item field)) := by
    rw [List.map_eq_flatMap]
    apply Puts.mapM
    intro field hfield c' h'
    apply puts_enumValue
    rw [(h₁.trans h').refines.declarations]
    exact hfields field hfield
  unfold enumParts
  exact .congr ((puts_refIdOf hentity hb .member).bind fun _ _ h₁ =>
    (hvalues h₁).bind fun _ _ h₂ =>
    (puts_description (hb.mono (h₁.trans h₂).refines)).bind fun _ _ h₃ =>
      (puts_footnotes (hb.mono ((h₁.trans h₂).trans h₃).refines)).bind
        fun _ _ _ => .pure _ _) (fun _ _ => rfl) (by simp)

end Page

namespace Press

open LuaGloss.Xml LuaGloss.Page

theorem puts_baseReferences (c : Catalog) (id : ItemId) (item : Item) :
    Puts (baseReferences id item) c (View.baseReferences · id) [] := by
  apply Puts.assuming
  intro hc
  unfold baseReferences
  apply Puts.get_bind
  dsimp only
  split
  next hempty =>
    refine (Puts.pure _ c).congr ?_ nofun
    intro c' hrefines
    simp only [View.baseReferences, hrefines.baseTypeOf hc, if_pos hempty]
  next hsome =>
    unfold baseReference
    apply Puts.get_bind
    dsimp only
    split
    next target htarget =>
      have hrendered := (Option.filter_eq_some_iff.1 htarget).2
      refine .congr
        ((puts_itemRefIdOf (Catalog.lt_size_of_isRendered hrendered)).bind
          fun _ _ _ => .pure _ _) ?_ nofun
      intro c' hrefines
      simp only [View.baseReferences, hrefines.baseTypeOf hc, if_neg hsome,
        hrefines.declarations, hrefines.filter_isRendered hc, htarget]
    next hnone =>
      -- Nothing is put together after the warning, so that the state can be
      -- compared directly.
      intro _
      have hwarn := Catalog.RenderStep.warn c item.file item.pos
        (.unresolvedBaseType (c.declarations.qualifiedName id) (c.baseTypeOf id))
      refine ⟨.single hwarn, ?_, nofun⟩
      intro c' hrefines
      have hrefines' := hwarn.refines.trans hrefines
      simp only [View.baseReferences, hrefines'.baseTypeOf hc, if_neg hsome,
        hrefines'.declarations, hrefines'.filter_isRendered hc, hnone]
      rfl

/-! ## Groups -/

theorem puts_groupItem {c : Catalog} {id : ItemId}
    (hid : id < c.declarations.items.size) :
    Puts (groupItem id) c (View.groupItem · id) [] := by
  apply Puts.assuming
  intro hc
  unfold groupItem
  apply Puts.get_bind
  by_cases hmember : (c.innerElement id).isEmpty = true
  · simp only [hmember, if_true]
    refine .congr ((puts_itemRefIdOf hid).bind fun _ _ _ => .pure _ _) ?_ nofun
    intro c' hrefines
    simp only [View.groupItem, hrefines.innerElement hc, if_pos hmember]
  · simp only [hmember, Bool.false_eq_true, if_false]
    refine .congr ((puts_itemRefIdOf hid).bind fun _ _ _ => .pure _ _) ?_ nofun
    intro c' hrefines
    simp only [View.groupItem, hrefines.innerElement hc, if_neg hmember]

theorem puts_innerGroup (c : Catalog) (id : GroupId) :
    Puts (innerGroup id) c (View.innerGroup · id) [] := by
  apply Puts.assuming
  intro hc
  unfold innerGroup
  apply Puts.get_bind
  split
  next hnone =>
    refine (Puts.pure _ c).congr ?_ nofun
    intro c' hrefines
    simp only [View.innerGroup, hrefines.group?, hnone]
  next group hgroup =>
    obtain ⟨b, hb, -⟩ := Catalog.block?_of_group? hc hgroup
    have hown : c.ownBlock? (.footnote group.block) = some group.block := rfl
    refine .congr ((puts_refIdOf hown (.of_block? hb) .member).bind fun _ _ _ =>
      .pure _ _) ?_ nofun
    intro c' hrefines
    simp only [View.innerGroup, hrefines.group?, hgroup]

theorem compound_of_refines {c c' : Catalog} (h : c.Refines c') (kind : String)
    (refId name : Bytes) (content : List Xml) :
    compound c' kind refId name content = compound c kind refId name content := by
  rw [compound, compound, h.language]

theorem imports_of_refines {c c' : Catalog} {own : BlockId} {b : Block}
    (hb : c.Keeps own b) (h : c.Refines c') :
    imports c' own = imports c own := by
  obtain ⟨given, hb₁⟩ := hb
  obtain ⟨refId, hb₂, -⟩ := h.block own _ hb₁
  simp [imports, hb₁, hb₂]

theorem puts_groupPage {c : Catalog} {id : GroupId} {group : Group} {b : Block}
    (hgroup : c.docs.group? id = some group) (hb : c.Keeps group.block b)
    {refId : Bytes} (hrefId : c.Settles (·.givenId group.block) refId) :
    Puts (groupPage group refId) c (View.groupPage · group)
      (b.footnotes.map fun note => (.member, .footnote note)) := by
  apply Puts.assuming
  intro hc
  have hitems := Puts.mapM group.items c fun item hitem c' h' => by
    apply puts_groupItem
    rw [h'.refines.declarations]
    exact hc.docs.grouped.items id _ (Docs.groupLinks?_of_group? hgroup) item hitem
  have hread {c₁ c₂ : Catalog} (h₁ : c.Renders c₁) (h₂ : c₁.Refines c₂) :
      imports c₂ group.block = imports c₁ group.block ∧
        ((c₂.docs.block? group.block).map (·.title)).getD [] =
          ((c₁.docs.block? group.block).map (·.title)).getD [] := by
    have hb₁ := hb.mono h₁.refines
    refine ⟨imports_of_refines hb₁ h₂, ?_⟩
    obtain ⟨given, hb₁'⟩ := hb₁
    obtain ⟨refId, hb₂, -⟩ := h₂.block _ _ hb₁'
    simp [hb₁', hb₂]
  unfold groupPage
  refine .congr (hitems.bind fun _ _ h₁ =>
    (puts_footnotes (hb.mono h₁.refines)).bind fun _ c₂ h₂ =>
    (Puts.mapM group.groups c₂ fun id _ c' _ => puts_innerGroup c' id).bind
      fun _ _ h₃ =>
      (puts_description (hb.mono ((h₁.trans h₂).trans h₃).refines)).bind
        fun _ _ h₄ => .reads ?_) ?_ (by simp)
  · intro c' hrefines
    obtain ⟨himports, htitle⟩ := hread (((h₁.trans h₂).trans h₃).trans h₄) hrefines
    simp only [compound_of_refines hrefines, himports, htitle]
  · intro c' hrefines
    simp only [View.groupPage, hrefId c' hrefines, List.flatMap_def]

end Press

end LuaGloss

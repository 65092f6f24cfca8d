import LuaGloss.Proofs.Files.Replay
import LuaGloss.Proofs.Page.Layout
import LuaGloss.Proofs.Page.Settled

/-!
# What the press writes

The press adds to the index and writes pages, and leaves parts for pages that
are still to come.  All of this is what the views say of the catalog in the end,
and the files are the texts of the pages and of the index, in the order in which
they were written.  So the pages define exactly what there is to show.  If the
press stops with an error, the catalog is still one that was reached by writing.
-/

namespace LuaGloss

/-- The path and the text of the file that a page is written to. -/
def Page.file (directory : Bytes) (page : Page) : Bytes × Bytes :=
  (pagePath directory page.refId, document "doxygen" page.content)

namespace Press

open LuaGloss.Xml LuaGloss.Page

/-- From a consistent catalog the action comes to another one by writing, also
if it fails.  If it does not, its result is as `post` says. -/
def Prints (action : PressM α) (p : Press) (post : α → Press → Prop) : Prop :=
  p.catalog.Consistent →
    match action p with
    | .ok a p' => p.catalog.Renders p'.catalog ∧ post a p'
    | .error _ p' => p.catalog.Renders p'.catalog

namespace Prints

theorem assuming {action : PressM α} {p : Press} {post : α → Press → Prop}
    (h : p.catalog.Consistent → Prints action p post) : Prints action p post :=
  fun hc => h hc hc

theorem mono {action : PressM α} {p : Press} {post post' : α → Press → Prop}
    (h : Prints action p post)
    (himp : ∀ a p', p.catalog.Renders p'.catalog → post a p' → post' a p') :
    Prints action p post' := by
  intro hc
  have hresult := h hc
  cases haction : action p with
  | error e p' =>
      rw [haction] at hresult
      exact hresult
  | ok a p' =>
      rw [haction] at hresult
      exact ⟨hresult.1, himp a p' hresult.1 hresult.2⟩

theorem pure {a : α} {p : Press} {post : α → Press → Prop} (h : post a p) :
    Prints (Pure.pure a : PressM α) p post :=
  fun _ => ⟨.refl _, h⟩

theorem andThen {action : PressM α} {next : α → PressM β} {p : Press}
    {mid : α → Press → Prop} {post : β → Press → Prop} (h : Prints action p mid)
    (hnext : ∀ a p', p.catalog.Renders p'.catalog → p'.catalog.Consistent →
      mid a p' → Prints (next a) p' post) :
    Prints (action >>= next) p post := by
  intro hc
  have hfirst := h hc
  change match EStateM.bind action next p with
    | .ok b p' => p.catalog.Renders p'.catalog ∧ post b p'
    | .error _ p' => p.catalog.Renders p'.catalog
  unfold EStateM.bind
  cases haction : action p with
  | error e p' =>
      rw [haction] at hfirst
      exact hfirst
  | ok a p' =>
      rw [haction] at hfirst
      obtain ⟨hrenders, hmid⟩ := hfirst
      have hc' := hrenders.consistent hc
      have hrest := hnext a p' hrenders hc' hmid hc'
      dsimp only
      cases hresult : next a p' with
      | error e p'' =>
          rw [hresult] at hrest
          exact hrenders.trans hrest
      | ok b p'' =>
          rw [hresult] at hrest
          exact ⟨hrenders.trans hrest.1, hrest.2⟩

theorem get_bind {next : Press → PressM β} {p : Press} {post : β → Press → Prop}
    (h : Prints (next p) p post) : Prints (get >>= next) p post := h

end Prints

/-- The files that have been written when the press is done: those of the pages
in their order, and the index. -/
def files (p : Press) (directory name : Bytes) : List (Bytes × Bytes) :=
  p.pages.map (Page.file directory) ++
    [(Path.join directory name, document "doxygenindex" p.index)]

/-- From `p` to `p'` the given lines were added to the index and the given pages
were written. -/
structure Issues (directory : Bytes) (p p' : Press) (sheets : Sheets) : Prop where
  index : p'.index = p.index ++ sheets.index
  pages : p'.pages = p.pages ++ sheets.pages
  tree : p.tree.writeAll (sheets.pages.map (Page.file directory)) = .ok p'.tree

namespace Issues

variable {directory : Bytes}

theorem nothing (p : Press) (catalog : Catalog) :
    Issues directory p { p with catalog } .empty :=
  ⟨by simp [Sheets.empty], by simp [Sheets.empty], rfl⟩

theorem append {p p' p'' : Press} {s t : Sheets} (h : Issues directory p p' s)
    (h' : Issues directory p' p'' t) : Issues directory p p'' (s ++ t) where
  index := by rw [h'.index, h.index, Sheets.index_append, List.append_assoc]
  pages := by rw [h'.pages, h.pages, Sheets.pages_append, List.append_assoc]
  tree := by
    rw [Sheets.pages_append, List.map_append]
    exact FileTree.writeAll_append h.tree h'.tree

end Issues

/-- The action does what the view says: the result is the one, and the lines and
pages that are written are the other.  What is shown gets ids. -/
def Produces (directory : Bytes) (action : PressM α) (p : Press)
    (view : Catalog → α × Sheets) (shown : List (Form × Entity)) : Prop :=
  Prints action p fun a p' => ∃ sheets, Issues directory p p' sheets ∧
    p'.catalog.Settles view (a, sheets) ∧
    p'.catalog.Names shown

namespace Produces

variable {directory : Bytes} {action : PressM α} {p : Press}
  {view view' : Catalog → α × Sheets} {shown shown' : List (Form × Entity)}

theorem assuming
    (h : p.catalog.Consistent → Produces directory action p view shown) :
    Produces directory action p view shown := Prints.assuming h

theorem pure (a : α) (p : Press) :
    Produces directory (Pure.pure a) p (fun _ => (a, .empty)) [] :=
  Prints.pure ⟨.empty, .nothing p _, fun _ _ => rfl, nofun⟩

theorem get_bind {next : Press → PressM α}
    (h : Produces directory (next p) p view shown) :
    Produces directory (get >>= next) p view shown := h

theorem bind {next : α → PressM β} {view' : α → Catalog → β × Sheets}
    (h : Produces directory action p view shown)
    (hnext : ∀ a p', p.catalog.Renders p'.catalog →
      p'.catalog.Settles (fun c => (view c).1) a →
      Produces directory (next a) p' (view' a) shown') :
    Produces directory (action >>= next) p
      (fun c => ((view' (view c).1 c).1, (view c).2 ++ (view' (view c).1 c).2))
        (shown ++ shown') := by
  apply Prints.andThen h
  intro a p₁ hrenders _ ⟨sheets, hissues, hview, hnames⟩
  have hresult : p₁.catalog.Settles (fun c => (view c).1) a :=
    fun c hrefines => congrArg Prod.fst (hview c hrefines)
  apply (hnext a p₁ hrenders hresult).mono
  intro b p₂ hrenders' ⟨sheets', hissues', hview', hnames'⟩
  refine ⟨sheets ++ sheets', hissues.append hissues', ?_,
    Catalog.names_append.2 ⟨hnames.mono hrenders'.refines, hnames'⟩⟩
  intro c hrefines
  dsimp only
  rw [hview c (hrenders'.refines.trans hrefines), hview' c hrefines]

theorem congr (h : Produces directory action p view shown)
    (hview : ∀ c, p.catalog.Refines c → view' c = view c)
    (hshown : ∀ e ∈ shown', e ∈ shown) :
    Produces directory action p view' shown' := by
  apply Prints.mono h
  intro a p' hrenders ⟨sheets, hissues, hsettles, hnames⟩
  refine ⟨sheets, hissues, ?_, fun e he => hnames e (hshown e he)⟩
  exact fun c hrefines =>
    (hview c (hrenders.refines.trans hrefines)).trans (hsettles c hrefines)

theorem withView (h : Produces directory action p view shown)
    (hview : ∀ c, p.catalog.Refines c → view' c = view c) :
    Produces directory action p view' shown := h.congr hview fun _ he => he

theorem onCatalog {action : CatalogM α} {view : Catalog → α}
    (h : Puts action p.catalog view shown) :
    Produces directory (Press.onCatalog action) p (fun c =>
      (view c, .empty)) shown := by
  intro hc
  obtain ⟨hrenders, hsettles, hnames⟩ := h hc
  exact ⟨hrenders, .empty, .nothing p _, fun c hrefines =>
    congrArg (·, Sheets.empty) (hsettles c hrefines), hnames⟩

theorem itemBlockOf {next : BlockId → PressM α} {id : ItemId}
    (hid : id < p.catalog.declarations.items.size)
    (hnext : ∀ own p', p.catalog.Renders p'.catalog → p'.catalog.Consistent →
      p'.catalog.docs.blockOf? id = some own →
      Produces directory (next own) p' view shown) :
    Produces directory (Press.onCatalog (Page.itemBlockOf id) >>= next)
      p view shown := by
  have hblock : Prints (Press.onCatalog (Page.itemBlockOf id)) p fun own p' =>
      p'.catalog.docs.blockOf? id = some own ∧ Issues directory p p' .empty := by
    intro hc
    obtain ⟨hrenders, hown⟩ := yields_itemBlockOf hid hc
    exact ⟨hrenders, hown, .nothing p _⟩
  apply hblock.andThen
  intro own p₁ hrenders hc₁ ⟨hown, hissues⟩
  apply (hnext own p₁ hrenders hc₁ hown).mono
  intro a p₂ _ ⟨sheets, hissues', hrest⟩
  exact ⟨sheets, hissues.append hissues', hrest⟩

theorem addToIndex (entries : List Xml) (p : Press) :
    Produces directory (Press.addToIndex entries) p (fun _ =>
      ((), ⟨entries, []⟩)) [] :=
  fun _ => ⟨.refl _, ⟨entries, []⟩, ⟨rfl, by simp, rfl⟩, fun _ _ => rfl, nofun⟩

theorem writePage (refId : Bytes) (content : List Xml) (p : Press) :
    Produces directory (Press.writePage directory refId content) p (fun _ =>
      ((), ⟨[], [⟨refId, content⟩]⟩)) [] := by
  unfold Press.writePage
  apply Prints.get_bind
  split
  next tree htree =>
    refine fun _ =>
      ⟨.refl _, ⟨[], [⟨refId, content⟩]⟩, ⟨by simp, rfl, ?_⟩,
        fun _ _ => rfl, nofun⟩
    exact FileTree.writeAll_singleton htree
  next => exact fun _ => .refl _

end Produces

/-! ## Items -/

theorem produces_finishCompound {p : Press} {own : BlockId} {b : Block}
    (hb : p.catalog.Keeps own b) {refId : Bytes}
    (hrefId : p.catalog.Settles (·.givenId own) refId) (directory : Bytes)
    (id : ItemId) (item : Item) (kind : VariableKind) (parts : Parts) :
    Produces directory (finishCompound directory id item kind own refId parts) p
      (fun c => ((), View.compoundSheets c id item kind own parts))
      (b.footnotes.map fun note => (.member, .footnote note)) := by
  -- The name, the imports and the language are read when everything else has
  -- been put together.
  let page (notes base text : List Xml) (c : Catalog) : Unit × Sheets :=
    ((), ⟨indexCompound (compoundKind kind) refId
      (c.declarations.qualifiedName id) (lineBreak :: parts.index),
      [⟨refId, compound c (compoundKind kind) refId
        (c.declarations.qualifiedName id) <|
        base ++ parts.inner ++ Parts.memberSection (parts.members ++ notes) ++
          imports c own ++ text ++ location item⟩]⟩)
  have hpage {p' : Press} (h : p.catalog.Renders p'.catalog) (notes base text :
      List Xml) (c : Catalog)
      (hrefines : p'.catalog.Refines c) : page notes base text c =
        page notes base text p'.catalog := by
    simp only [page, compound_of_refines hrefines, hrefines.declarations,
      imports_of_refines (hb.mono h.refines) hrefines]
  unfold finishCompound
  refine .congr ((Produces.onCatalog (puts_footnotes hb)).bind fun notes p₁ h₁ _ =>
    (Produces.onCatalog (puts_baseReferences p₁.catalog id item)).bind
      fun base p₂ h₂ _ =>
      (Produces.onCatalog
        (puts_description (hb.mono (h₁.trans h₂).refines))).bind
          fun text p₃ h₃ _ =>
        .get_bind (.withView ((Produces.addToIndex _ p₃).bind fun _ _ _ _ =>
          .writePage _ _ _)
          (hpage ((h₁.trans h₂).trans h₃) notes base text))) ?_ (by simp)
  intro c hrefines
  simp only [View.compoundSheets, View.compoundPage, hrefId c hrefines]
  rfl

mutual

theorem produces_showItem (directory : Bytes) (isQualified : Bool)
    (tree : ItemTree) (p : Press) (h : p.catalog.declarations.Fits tree) :
    Produces directory (showItem directory isQualified tree) p
      (View.showItem · isQualified tree)
      (p.catalog.shownIn tree) := by
  cases tree with
  | node id fields =>
      obtain ⟨hitem, hfunction, hfields⟩ := h
      rename_i item
      apply Produces.assuming
      intro hc
      rw [showItem]
      apply Produces.get_bind
      have hitem' : p.catalog.item? id = some item := hitem
      simp only [hitem']
      apply Produces.itemBlockOf (Declarations.lt_size_of_item? hitem)
      intro own p₁ h₁ hc₁ hown
      obtain ⟨b, hb, -⟩ := Catalog.block?_of_blockOf? hc₁ hown
      have hb : p₁.catalog.Keeps own b := .of_block? hb
      -- Whatever comes later, the view takes the same branch.
      have hview {c : Catalog} (hrefines : p₁.catalog.Refines c) :
          c.item? id = some item ∧ c.kindOf id = p.catalog.kindOf id ∧
            c.blockNumber id = own ∧
            c.declarations = p.catalog.declarations := by
        have hrefines' := h₁.refines.trans hrefines
        exact ⟨(hrefines'.item? id).trans hitem', hrefines'.kindOf hc id,
          hrefines.blockNumber hown,
          hrefines'.declarations⟩
      have hfits {p' : Press} (hrenders : p₁.catalog.Renders p'.catalog) :
          ∀ field ∈ fields, p'.catalog.declarations.Fits field := by
        rw [(h₁.trans hrenders).refines.declarations]
        exact hfields
      have hshow {p' : Press} (hrenders : p₁.catalog.Renders p'.catalog)
          (isQualified : Bool) :
          Produces directory (showItems directory isQualified fields) p'
            (View.showItems · isQualified fields)
            (p.catalog.shownInAll fields) := by
        rw [← (h₁.trans hrenders).refines.shownInAll hc]
        exact produces_showItems directory isQualified fields p' (hfits hrenders)
      have hnotes : p.catalog.notes (p.catalog.docs.blockOf? id) =
          b.footnotes.map fun note => (.member, .footnote note) := by
        rw [← h₁.refines.notes_blockOf? hc, hown, hb.notes]
      split
      next hinit hkind =>
        have hvalues : ∀ field ∈ fields.map ItemTree.item, field <
            p₁.catalog.declarations.items.size := by
          intro field hfield
          obtain ⟨tree, htree, rfl⟩ := List.mem_map.1 hfield
          exact (hfits (.refl _) tree htree).item_lt
        refine .congr (.onCatalog (puts_enumParts hown hb item hvalues _)) ?_ ?_
        · intro c hrefines
          obtain ⟨hitem, hkind', hnumber, hdeclarations⟩ := hview hrefines
          simp only [View.showItem, hitem, hkind', hnumber, hdeclarations,
            hinit, hkind]
        · rw [Catalog.shownIn, hkind, hnotes]
          simp
      next init hinit hkind hsignature =>
        refine .congr
          ((Produces.onCatalog (puts_variableParts hown hb item init _)).bind
            fun _ _ h₂ _ =>
          (hshow h₂ true).bind fun _ _ _ _ => .pure _ _) ?_ ?_
        · intro c hrefines
          obtain ⟨hitem, hkind', hnumber, hdeclarations⟩ := hview hrefines
          simp only [View.showItem, hitem, hkind', hnumber, hdeclarations,
            hinit, hkind, hsignature, Sheets.empty_append, Sheets.append_empty]
        · rw [Catalog.shownIn, hkind, hnotes]
          simp
      next signature hkind hsignature =>
        refine .congr (.onCatalog (puts_functionParts hown hb item signature _))
          ?_ ?_
        · intro c hrefines
          obtain ⟨hitem, hkind', hnumber, hdeclarations⟩ := hview hrefines
          simp only [View.showItem, hitem, hkind', hnumber, hdeclarations,
            hkind, hsignature]
        · rw [Catalog.shownIn, hkind, hnotes, hfunction (by simp [hsignature]),
            Catalog.shownInAll]
          simp
      next hinit hnotEnum hnotVariable hnotFunction =>
        have hnotNormal : p.catalog.kindOf id ≠ .normal := by
          intro hkind
          cases hsignature : item.signature? with
          | none => exact hnotVariable hkind hsignature
          | some signature => exact hnotFunction signature hkind hsignature
        have hentity : p₁.catalog.ownBlock? (.item id) = some own := hown
        refine .congr
          ((Produces.onCatalog (puts_refIdOf hentity hb .compound)).bind
            fun _ _ h₂ hrefId =>
          (hshow h₂ false).bind fun parts _ h₃ _ =>
            (produces_finishCompound (hb.mono (h₂.trans h₃).refines)
              (hrefId.mono h₃.refines) directory id item
              (p.catalog.kindOf id) parts).bind fun _ _ _ _ => .pure _ _) ?_ ?_
        · intro c hrefines
          obtain ⟨hitem, hkind', hnumber, -⟩ := hview hrefines
          have helement := (h₁.refines.trans hrefines).innerElement hc id
          rw [← hkind'] at hnotEnum hnotNormal
          simp only [View.showItem_compound hitem hinit hnotEnum hnotNormal,
            helement, hkind', Catalog.givenItemId, hnumber, Sheets.empty_append,
            Sheets.append_empty]
        · rw [Catalog.shownIn_compound hnotEnum hnotNormal, hnotes]
          simp +contextual [or_imp]
      next hinit hnotFunction =>
        have hkind := View.kindOf_of_init? hitem hinit
        obtain ⟨signature, hsignature⟩ :=
          Option.isSome_iff_exists.1 (View.signature?_of_init? hinit)
        exact (hnotFunction signature hkind hsignature).elim

theorem produces_showItems (directory : Bytes) (isQualified : Bool)
    (trees : List ItemTree) (p : Press)
    (h : ∀ tree ∈ trees, p.catalog.declarations.Fits tree) :
    Produces directory (showItems directory isQualified trees) p
      (View.showItems · isQualified trees)
      (p.catalog.shownInAll trees) := by
  cases trees with
  | nil =>
      rw [showItems, Catalog.shownInAll]
      refine (Produces.pure _ p).congr (fun c _ => ?_) nofun
      rw [View.showItems]
  | cons tree trees =>
      apply Produces.assuming
      intro hc
      have hrest {p' : Press} (hrenders : p.catalog.Renders p'.catalog) :
          Produces directory (showItems directory isQualified trees) p'
            (View.showItems · isQualified trees)
            (p.catalog.shownInAll trees) := by
        rw [← hrenders.refines.shownInAll hc]
        apply produces_showItems
        rw [hrenders.refines.declarations]
        exact fun tree htree => h tree (by simp [htree])
      rw [showItems, Catalog.shownInAll]
      refine .congr
        ((produces_showItem directory isQualified tree p
          (h tree (by simp))).bind fun _ _ h₁ _ =>
        (hrest h₁).bind fun _ _ _ _ => .pure _ _) ?_ (by simp)
      intro c _
      simp only [View.showItems, Sheets.append_empty]

end

theorem produces_writeItems (directory : Bytes) (p : Press) :
    Produces directory (writeItems directory) p (fun c => ((), View.itemSheets c))
      (p.catalog.shownInAll
        (p.catalog.declarations.forest p.catalog.isRendered)) := by
  apply Produces.assuming
  intro hc
  have hfits := hc.declarations.fits_forest p.catalog.isRendered
  let page (parts : Parts) (c : Catalog) : Unit × Sheets :=
    ((), ⟨[], [⟨Docs.globalId,
      compound c "file" Docs.globalId Docs.globalId
        (parts.inner ++ Parts.memberSection parts.members)⟩]⟩)
  have hpage {p' : Press} (parts : Parts) (c : Catalog)
      (hrefines : p'.catalog.Refines c) :
      page parts c = page parts p'.catalog := by
    simp only [page, compound_of_refines hrefines]
  unfold writeItems
  apply Produces.get_bind
  refine .congr
    ((produces_showItems directory true _ p hfits).bind fun parts _ _ _ =>
    (Produces.addToIndex _ _).bind fun _ p₂ _ _ =>
      .get_bind ((Produces.writePage _ _ p₂).withView (hpage parts))) ?_ (by simp)
  intro c hrefines
  simp only [View.itemSheets, hrefines.declarations,
    funext (hrefines.isRendered hc)]
  rfl

/-! ## Groups -/

theorem produces_writeGroup (directory : Bytes) {id : GroupId} {p : Press}
    (hid : (p.catalog.docs.group? id).isSome) :
    Produces directory (writeGroup directory id) p (fun c =>
      ((), View.groupSheets c id)) (p.catalog.shownOfGroup id) := by
  apply Produces.assuming
  intro hc
  obtain ⟨group, hgroup⟩ := Option.isSome_iff_exists.1 hid
  obtain ⟨b, hb, -⟩ := Catalog.block?_of_group? hc hgroup
  have hb : p.catalog.Keeps group.block b := .of_block? hb
  have hown : p.catalog.ownBlock? (.group id) = some group.block := by
    simp [Catalog.ownBlock?, hgroup]
  unfold writeGroup
  apply Produces.get_bind
  simp only [hgroup]
  refine .congr
    ((Produces.onCatalog (puts_refIdOf hown hb .compound)).bind
      fun _ _ h₁ hrefId =>
    (Produces.addToIndex _ _).bind fun _ _ h₂ _ =>
      (Produces.onCatalog
        (puts_groupPage (((h₁.trans h₂).refines.group? id).trans hgroup)
        (hb.mono (h₁.trans h₂).refines) (hrefId.mono h₂.refines))).bind
          fun _ _ _ _ => .writePage _ _ _) ?_ ?_
  · intro c hrefines
    simp only [View.groupSheets, hrefines.group?, hgroup]
    rfl
  · simp only [Catalog.shownOfGroup, hgroup, Option.map_some, hb.notes]
    simp

theorem produces_groups (directory : Bytes) (ids : List GroupId) (p : Press)
    (h : ∀ id ∈ ids, (p.catalog.docs.group? id).isSome) :
    Produces directory (forIn ids PUnit.unit fun id _ => do
      writeGroup directory id
      return .yield PUnit.unit) p (fun c => ((), View.groupsSheets c ids))
        (ids.flatMap p.catalog.shownOfGroup) := by
  induction ids generalizing p with
  | nil => exact Produces.pure _ p
  | cons id ids ih =>
      apply Produces.assuming
      intro hc
      simp only [List.forIn_cons, bind_assoc, pure_bind]
      refine .congr
        ((produces_writeGroup directory (h id (by simp))).bind fun _ p₁ h₁ _ => by
        have hrest := ih p₁ fun id hid => by
          rw [h₁.refines.group?]
          exact h id (by simp [hid])
        rw [funext (h₁.refines.shownOfGroup hc)] at hrest
        exact hrest) (fun _ _ => rfl) (by simp)

theorem produces_writeGroups (directory : Bytes) (p : Press) :
    Produces directory (writeGroups directory) p (fun c =>
      ((), View.groupsSheets c c.docs.listedGroups))
      (p.catalog.docs.listedGroups.flatMap p.catalog.shownOfGroup) := by
  apply Produces.assuming
  intro hc
  have hlisted :
      ∀ id ∈ p.catalog.docs.listedGroups, (p.catalog.docs.group? id).isSome := by
    intro id hid
    simpa [Docs.groupLinks?] using hc.docs.grouped.listed id hid
  unfold writeGroups
  apply Produces.get_bind
  refine .congr ((produces_groups directory _ p hlisted).bind fun _ _ _ _ =>
    .pure _ _) ?_ (by simp)
  intro c hrefines
  simp only [hrefines.listedGroups, Sheets.append_empty]

/-! ## Everything -/

theorem prints_writeIndex (directory name : Bytes) (p : Press) :
    Prints (writeIndex directory name) p fun _ p' => ∃ tree, p' = { p with tree } ∧
      p.tree.write (Path.join directory name)
        (document "doxygenindex" p.index) = .ok tree := by
  unfold writeIndex
  apply Prints.get_bind
  split
  next tree htree => exact fun _ => ⟨.refl _, tree, rfl, htree⟩
  next => exact fun _ => .refl _

/-- Writes all pages and the index of documentation that is in its final
state. -/
def writePages (directory name : Bytes) : PressM Unit := do
  writeItems directory
  writeGroups directory
  writeIndex directory name

theorem prints_writePages (directory name : Bytes) (p : Press) :
    Prints (writePages directory name) p fun _ p' =>
      ∃ sheets, p'.index = p.index ++ sheets.index ∧
        p'.pages = p.pages ++ sheets.pages ∧
        p.tree.writeAll (sheets.pages.map (Page.file directory) ++
          [(Path.join directory name, document "doxygenindex" p'.index)]) =
            .ok p'.tree ∧
        p'.catalog.Settles View.sheets sheets ∧
        p'.catalog.Names p'.catalog.shown := by
  apply Prints.assuming
  intro hc
  have hboth :
      Produces directory (do writeItems directory; writeGroups directory) p
        (fun c => ((), View.sheets c))
      (p.catalog.shownInAll (p.catalog.declarations.forest p.catalog.isRendered) ++
        p.catalog.docs.listedGroups.flatMap p.catalog.shownOfGroup) := by
    refine .withView ((produces_writeItems directory p).bind fun _ p₁ h₁ _ => by
      have hgroups := produces_writeGroups directory p₁
      rw [h₁.refines.listedGroups, funext (h₁.refines.shownOfGroup hc)] at hgroups
      exact hgroups) fun _ _ => rfl
  unfold writePages
  rw [← bind_assoc]
  apply Prints.andThen hboth
  intro _ p₁ h₁ _ ⟨sheets, hissues, hsettles, hnames⟩
  apply (prints_writeIndex directory name p₁).mono
  intro _ p₂ _ ⟨tree, heq, htree⟩
  rw [heq]
  refine ⟨sheets, hissues.index, hissues.pages, ?_, fun c hrefines =>
    congrArg Prod.snd (hsettles c hrefines), ?_⟩
  · exact FileTree.writeAll_append hissues.tree (FileTree.writeAll_singleton htree)
  · rw [h₁.refines.shown hc]
    exact Catalog.names_cons.2 ⟨rfl, hnames⟩

end Press

namespace Catalog

theorem press_eq (c : Catalog) (tree : FileTree) (directory name : Bytes) :
    c.press tree directory name =
      match tree.makeDirectories directory with
      | .ok tree => Press.writePages directory name ⟨c.finalize, tree, [], []⟩
      | .error cause => .error (.directory directory cause) ⟨c, tree, [], []⟩ := by
  have hmake : Press.makeDirectory directory ⟨c, tree, [], []⟩ =
      match tree.makeDirectories directory with
      | .ok tree => .ok () ⟨c, tree, [], []⟩
      | .error cause => .error (.directory directory cause) ⟨c, tree, [], []⟩ := by
    have hget (p : Press) : (get : PressM Press) p = .ok p p := rfl
    simp only [Press.makeDirectory, bind, EStateM.bind, hget]
    cases tree.makeDirectories directory with
    | ok tree => rfl
    | error cause => rfl
  simp only [press, EStateM.run, Press.writeAll, bind, EStateM.bind, hmake]
  cases tree.makeDirectories directory with
  | ok tree => rfl
  | error cause => rfl

/-- What the press leaves behind, with an error and without one. -/
theorem press_leaves {c : Catalog} (hc : c.Consistent) (tree : FileTree)
    (directory name : Bytes) : match c.press tree directory name with
    | .ok _ p =>
      c.finalize.Renders p.catalog ∧
        p.catalog.Settles View.sheets ⟨p.index, p.pages⟩ ∧
        p.catalog.Names p.catalog.shown ∧
        ∃ made, tree.makeDirectories directory = .ok made ∧
        made.writeAll (p.files directory name) = .ok p.tree
    | .error _ p => p.catalog = c ∨ c.finalize.Renders p.catalog := by
  have hc' := (reaches_finalize hc).consistent hc
  rw [press_eq]
  cases hmade : tree.makeDirectories directory with
  | error cause => exact .inl rfl
  | ok made =>
      dsimp only
      have hprints :=
        Press.prints_writePages directory name ⟨c.finalize, made, [], []⟩ hc'
      cases hresult :
        Press.writePages directory name ⟨c.finalize, made, [], []⟩ with
      | error e p =>
          rw [hresult] at hprints
          exact .inr hprints
      | ok _ p =>
          rw [hresult] at hprints
          -- The press starts without pages, so that those that were added are
          -- all.
          obtain ⟨hrenders, sheets, hindex, hpages, htree, hsettles, hnames⟩ :=
            hprints
          rw [List.nil_append] at hindex hpages
          have hsheets : (⟨p.index, p.pages⟩ : Sheets) = sheets := by
            rw [hindex, hpages]
          refine ⟨hrenders, by rw [hsheets]; exact hsettles, hnames, made, rfl, ?_⟩
          unfold Press.files
          rw [hpages]
          exact htree

/-- Without an error, index and pages are what the views say of the catalog, now
and when more ids have been given out, and they are the files that have been
written. -/
theorem press_settles {c : Catalog} (hc : c.Consistent) {tree : FileTree}
    {directory name : Bytes} {p : Press}
    (h : c.press tree directory name = .ok () p) :
    c.finalize.Renders p.catalog ∧
      p.catalog.Settles View.sheets ⟨p.index, p.pages⟩ ∧
      ∃ made, tree.makeDirectories directory = .ok made ∧
      made.writeAll (p.files directory name) = .ok p.tree := by
  have hleaves := press_leaves hc tree directory name
  rw [h] at hleaves
  obtain ⟨hrenders, hsettles, -, hwritten⟩ := hleaves
  exact ⟨hrenders, hsettles, hwritten⟩

/-- Without an error all pages are there, and they define what there is to show.
With an error the catalog has changed only as it does when pages are written. -/
theorem press_result {c : Catalog} (hc : c.Consistent) (tree : FileTree)
    (directory name : Bytes) : match c.press tree directory name with
    | .ok _ p => c.finalize.Renders p.catalog ∧ p.catalog.Shows p.pages
    | .error _ p => p.catalog = c ∨ c.finalize.Renders p.catalog := by
  have hleaves := press_leaves hc tree directory name
  cases hresult : c.press tree directory name with
  | error e p =>
      rw [hresult] at hleaves
      exact hleaves
  | ok _ p =>
      rw [hresult] at hleaves
      obtain ⟨hrenders, hsettles, hnames, -⟩ := hleaves
      have hc' := hrenders.consistent ((reaches_finalize hc).consistent hc)
      have hshows := View.shows_sheets hc' hnames
      rw [hsettles.eq] at hshows
      exact ⟨hrenders, hshows⟩

end Catalog

end LuaGloss

import LuaGloss.Proofs.Page.Items
import LuaGloss.Proofs.Page.Layout

/-!
# Footnotes on pages

The footnotes of an item stand right after the definition of the item.  If the
item has a page of its own, they stand there after all members.  Values of an
enumeration are shown without their footnotes.
-/

namespace LuaGloss

/-- The nodes `part` stand next to each other in the given nodes or somewhere
inside of them. -/
inductive Xml.Within (part : List Xml) : List Xml → Prop
  | here (before after : List Xml) : Within part (before ++ part ++ after)
  | inside {tag : Bytes} {attrs : List XmlAttr} {children : List Xml}
      (before after : List Xml) :
      Within part children →
      Within part (before ++ element tag attrs children :: after)

namespace Xml.Within

variable {part nodes : List Xml}

theorem append_left (h : Within part nodes) (more : List Xml) :
    Within part (more ++ nodes) := by
  cases h with
  | here before after =>
      rw [← List.append_assoc, ← List.append_assoc]
      exact .here (more ++ before) after
  | inside before after h =>
      rw [← List.append_assoc]
      exact .inside (more ++ before) after h

theorem append_right (h : Within part nodes) (more : List Xml) :
    Within part (nodes ++ more) := by
  cases h with
  | here before after =>
      rw [List.append_assoc]
      exact .here before (after ++ more)
  | inside before after h =>
      rw [List.append_assoc]
      exact .inside before (after ++ more) h

theorem refl (part : List Xml) : Within part part := by
  have hhere : Within part ([] ++ part ++ []) := .here [] []
  simpa using hhere

theorem ne_nil (h : Within part nodes) (hpart : part ≠ []) : nodes ≠ [] := by
  cases h with
  | here before after => simp [hpart]
  | inside before after _ => simp

theorem block (h : Within part nodes) (tag : String) (attrs : List XmlAttr) :
    Within part (Xml.block tag attrs nodes) :=
  .inside [] [lineBreak] (h.append_left [lineBreak])

theorem compound (h : Within part nodes) (c : Catalog) (kind : String)
    (refId name : Bytes) :
    Within part (Press.compound c kind refId name nodes) :=
  (h.append_left _).block _ _

end Xml.Within

namespace View

open LuaGloss.Xml LuaGloss.Page LuaGloss.Press

/-- The footnotes of the block follow the definition that is named after it. -/
def IsFollowed (c : Catalog) (own : BlockId) (nodes : List Xml) : Prop :=
  ∃ kind item name content,
    Within (definition kind (c.givenId own) item name content ++
      footnotes c own) nodes

/-- The page is named after the block, and its members end with the footnotes of
the block. -/
def EndsWithNotes (c : Catalog) (own : BlockId) (page : Page) : Prop :=
  page.refId = c.givenId own ∧
    ∃ members, Within (Parts.memberSection (members ++ footnotes c own))
      page.content

/-- What is shown in the given form under the id of the block has its footnotes
with it. -/
def Accompanied (c : Catalog) (form : Form) (own : BlockId) (pages : List Page) :
    Prop :=
  match form with
  | .member => ∃ page ∈ pages, IsFollowed c own page.content
  | .compound => ∃ page ∈ pages, EndsWithNotes c own page
  | .value => True

def Attended (c : Catalog) (form : Form) (own : BlockId)
    (shown : Parts × Sheets) : Prop :=
  form = .member ∧ IsFollowed c own shown.1.members ∨
    Accompanied c form own shown.2.pages

variable {c : Catalog} {form : Form} {own : BlockId}

theorem IsFollowed.mono {nodes nodes' : List Xml} (h : IsFollowed c own nodes)
    (hwithin : ∀ part, Within part nodes → Within part nodes') :
    IsFollowed c own nodes' := by
  obtain ⟨kind, item, name, content, hpart⟩ := h
  exact ⟨kind, item, name, content, hwithin _ hpart⟩

theorem Accompanied.mono {pages pages' : List Page}
    (h : Accompanied c form own pages) (hpages : ∀ page ∈ pages, page ∈ pages') :
    Accompanied c form own pages' := by
  cases form with
  | member =>
      obtain ⟨page, hpage, hfollowed⟩ := h
      exact ⟨page, hpages page hpage, hfollowed⟩
  | value => exact h
  | compound =>
      obtain ⟨page, hpage, hends⟩ := h
      exact ⟨page, hpages page hpage, hends⟩

theorem IsFollowed.memberSection {members : List Xml}
    (h : IsFollowed c own members) :
    IsFollowed c own (Parts.memberSection members) := by
  obtain ⟨kind, item, name, content, hpart⟩ := h
  have hmembers : members ≠ [] := hpart.ne_nil (by simp [definition, Xml.block])
  refine ⟨kind, item, name, content, ?_⟩
  rw [Parts.memberSection, if_neg (by simpa using hmembers)]
  exact hpart.block _ _

theorem Attended.append {p q : Parts} {s t : Sheets}
    (h : Attended c form own (p, s) ∨ Attended c form own (q, t)) :
    Attended c form own (p ++ q, s ++ t) := by
  rcases h with (⟨hform, hfollowed⟩ | hpages) | (⟨hform, hfollowed⟩ | hpages)
  · exact .inl ⟨hform, hfollowed.mono fun _ hpart => hpart.append_right q.members⟩
  · exact .inr (hpages.mono fun _ hpage => List.mem_append_left _ hpage)
  · exact .inl ⟨hform, hfollowed.mono fun _ hpart => hpart.append_left p.members⟩
  · exact .inr (hpages.mono fun _ hpage => List.mem_append_right _ hpage)

theorem not_mem_notes (c : Catalog) (block : Option BlockId) (form : Form)
    (id : ItemId) : (form, Entity.item id) ∉ c.notes block := by
  simp [Catalog.notes]

theorem attended_compound (c : Catalog) (form : Form) {id other : ItemId}
    (item : Item) (inner : List Xml) (shown : Parts × Sheets)
    (h : form = .compound ∧ other = id ∨
      Attended c form (c.blockNumber other) shown) :
    Attended c form (c.blockNumber other)
      (⟨inner, [], []⟩,
        shown.2 ++ compoundSheets c id item (c.kindOf id)
          (c.blockNumber id) shown.1) := by
  have hpage : compoundPage c id item (c.kindOf id) (c.blockNumber id) shown.1 ∈
      (shown.2 ++ compoundSheets c id item (c.kindOf id) (c.blockNumber id)
        shown.1).pages :=
    List.mem_append_right _ (List.mem_singleton.2 rfl)
  -- The section of the members stands between the references and the imports.
  have hsection {part : List Xml}
      (hpart : Within part
        (Parts.memberSection (shown.1.members ++
          footnotes c (c.blockNumber id)))) :
      Within part
        (compoundPage c id item (c.kindOf id) (c.blockNumber id)
          shown.1).content := by
    apply Within.compound
    exact (((hpart.append_left _).append_right _).append_right _).append_right _
  right
  rcases h with ⟨rfl, rfl⟩ | (⟨rfl, hfollowed⟩ | hpages)
  · exact ⟨_, hpage, rfl, shown.1.members, hsection (.refl _)⟩
  · have hmembers :
        IsFollowed c (c.blockNumber other)
          (shown.1.members ++ footnotes c (c.blockNumber id)) :=
      hfollowed.mono fun _ hpart => hpart.append_right _
    exact ⟨_, hpage, hmembers.memberSection.mono fun _ => hsection⟩
  · exact hpages.mono fun _ hmem => List.mem_append_left _ hmem

theorem Layout.attended {parts : Parts} {sheets : Sheets}
    {shown : List (Form × Entity)} (h : Layout c parts sheets shown)
    {id : ItemId} (hshown : (form, .item id) ∈ shown) :
    Attended c form (c.blockNumber id) (parts, sheets) := by
  induction h with
  | nothing => simp at hshown
  | append _ _ ih ih' =>
      exact Attended.append ((List.mem_append.1 hshown).imp ih ih')
  | function top item signature name =>
      obtain ⟨rfl, rfl⟩ : form = .member ∧
          id = top := by simpa [not_mem_notes] using hshown
      exact .inl ⟨rfl, _, _, _, _, .refl _⟩
  | plain top item init name =>
      obtain ⟨rfl, rfl⟩ : form = .member ∧
          id = top := by simpa [not_mem_notes] using hshown
      exact .inl ⟨rfl, _, _, _, _, .refl _⟩
  | enumeration top item fields name =>
      have hcases : (form = .member ∧ id = top) ∨
          ∃ field ∈ fields, Form.value = form ∧ field = id := by
        simpa [not_mem_notes] using hshown
      rcases hcases with ⟨rfl, rfl⟩ | ⟨field, -, rfl, -⟩
      · exact .inl ⟨rfl, _, _, _, _, .refl _⟩
      · exact .inr trivial
  | @compound top item parts sheets shown hnotNormal hnotEnum _ ih =>
      have hcases : (form = .compound ∧ id = top) ∨
          (form, Entity.item id) ∈ shown := by
        simpa [not_mem_notes] using hshown
      exact attended_compound c form item _ (parts, sheets) (hcases.imp_right ih)

/-- Whatever item is shown, its footnotes are with it, unless it is the value of
an enumeration. -/
theorem accompanied_of_shown (hc : c.Consistent) {id : ItemId}
    (h : (form, .item id) ∈ c.shown) :
    Accompanied c form (c.blockNumber id) (sheets c).pages := by
  have hshown : (form, Entity.item id) ∈
      c.shownInAll (c.declarations.forest c.isRendered) := by
    simpa [Catalog.shown, Catalog.shownOfGroup, not_mem_notes] using h
  have hitems : Accompanied c form (c.blockNumber id) (itemSheets c).pages := by
    rcases (layout_items hc).attended hshown with ⟨rfl, hfollowed⟩ | hpages
    · refine ⟨_, List.mem_append_right _ (List.mem_singleton.2 rfl), ?_⟩
      exact hfollowed.memberSection.mono fun _ hpart =>
        (hpart.append_left _).compound _ _ _ _
    · exact hpages.mono fun _ hpage => List.mem_append_left _ hpage
  exact hitems.mono fun _ hpage => List.mem_append_left _ hpage

end View

/-! ## Footnotes that are not shown -/

namespace Catalog

variable {c : Catalog}

/-- The footnote belongs to an item that is shown, and not as a value. -/
def HasShownOwner (c : Catalog) (shown : List (Form × Entity)) (note : BlockId) :
    Prop :=
  ∃ form id own b, form ≠ Form.value ∧ (form, Entity.item id) ∈ shown ∧
    c.docs.blockOf? id = some own ∧
    c.docs.block? own = some b ∧ note ∈ b.footnotes

theorem HasShownOwner.mono {shown shown' : List (Form × Entity)}
    {note : BlockId} (h : c.HasShownOwner shown note)
    (hsubset : ∀ e ∈ shown, e ∈ shown') : c.HasShownOwner shown' note := by
  obtain ⟨form, id, own, b, hform, hmem, hrest⟩ := h
  exact ⟨form, id, own, b, hform, hsubset _ hmem, hrest⟩

theorem owner_of_mem_notes {block : Option BlockId} {form : Form}
    {note : BlockId} (h : (form, Entity.footnote note) ∈ c.notes block) :
    ∃ own b, block = some own ∧ c.docs.block? own = some b ∧
    note ∈ b.footnotes := by
  unfold notes at h
  cases block with
  | none => simp at h
  | some own =>
      cases hb : c.docs.block? own with
      | none => simp [hb] at h
      | some b =>
          obtain ⟨hnote, -⟩ : note ∈ b.footnotes ∧ Form.member = form := by
            simpa [hb] using h
          exact ⟨own, b, rfl, hb, hnote⟩

theorem hasShownOwner {parts : Page.Parts} {sheets : Sheets}
    {shown : List (Form × Entity)} (h : View.Layout c parts sheets shown)
    {form : Form} {note : BlockId}
    (hnote : (form, Entity.footnote note) ∈ shown) :
    c.HasShownOwner shown note := by
  have hown {form' : Form} {id : ItemId} {shown : List (Form × Entity)}
      (hform : form' ≠ .value)
      (hself : (form', Entity.item id) ∈ shown)
      (hnote : (form, Entity.footnote note) ∈ c.notes (c.docs.blockOf? id)) :
      c.HasShownOwner shown note := by
    obtain ⟨own, b, hblock, hb, hmem⟩ := owner_of_mem_notes hnote
    exact ⟨form', id, own, b, hform, hself, hblock, hb, hmem⟩
  induction h with
  | nothing => simp at hnote
  | append _ _ ih ih' =>
      rcases List.mem_append.1 hnote with hfirst | hrest
      · exact (ih hfirst).mono fun _ => List.mem_append_left _
      · exact (ih' hrest).mono fun _ => List.mem_append_right _
  | function => exact hown (by simp) List.mem_cons_self (by simpa using hnote)
  | plain => exact hown (by simp) List.mem_cons_self (by simpa using hnote)
  | enumeration => exact hown (by simp) List.mem_cons_self (by simpa using hnote)
  | compound _ _ _ _ ih =>
      rcases List.mem_append.1
        ((List.mem_cons.1 hnote).resolve_left (by simp)) with hnotes | hbelow
      · exact hown (by simp) List.mem_cons_self hnotes
      · exact (ih hbelow).mono fun _ he =>
          List.mem_cons_of_mem _ (List.mem_append_right _ he)

theorem form_unique {shown : List (Form × Entity)}
    (h : (Entity.items shown).Nodup) {form form' : Form} {id : ItemId}
    (hmem : (form, Entity.item id) ∈ shown)
    (hmem' : (form', Entity.item id) ∈ shown) : form = form' := by
  have hitems {form : Form} {rest : List (Form × Entity)}
      (hrest : (form, Entity.item id) ∈ rest) :
      id ∈ Entity.items rest := List.mem_filterMap.2 ⟨_, hrest, rfl⟩
  induction shown with
  | nil => simp at hmem
  | cons e rest ih =>
      rcases List.mem_cons.1 hmem with rfl | hrest
      · rw [Entity.items_cons_item] at h
        rcases List.mem_cons.1 hmem' with heq | hrest'
        · exact (Prod.mk.inj heq).1.symm
        · exact ((List.nodup_cons.1 h).1 (hitems hrest')).elim
      · rcases List.mem_cons.1 hmem' with rfl | hrest'
        · rw [Entity.items_cons_item] at h
          exact ((List.nodup_cons.1 h).1 (hitems hrest)).elim
        · refine ih (h.sublist ?_) hrest hrest'
          exact (List.sublist_cons_self e rest).filterMap _

/-- The footnotes of the value of an enumeration are not shown. -/
theorem not_shown_of_value (hc : c.Consistent) {id : ItemId}
    {own note : BlockId} {b : Block}
    (hvalue : (Form.value, Entity.item id) ∈ c.shown)
    (hown : c.docs.blockOf? id = some own) (hb : c.docs.block? own = some b)
    (hkind : ∀ group, b.kind ≠ .group group) (hnote : note ∈ b.footnotes)
    (form : Form) : (form, Entity.footnote note) ∉ c.shown := by
  intro hshown
  obtain ⟨bnote, hbnote, hparent⟩ := block?_of_footnote hc hb hnote
  -- The block of the footnote says which block it belongs to.
  have hsame {own' : BlockId} {b' : Block} (hb' : c.docs.block? own' = some b')
      (hnote' : note ∈ b'.footnotes) :
      own' = own := by
    obtain ⟨bnote', hbnote', hparent'⟩ := block?_of_footnote hc hb' hnote'
    obtain rfl := Option.some.inj (hbnote.symm.trans hbnote')
    exact BlockKind.footnote.inj (hparent'.symm.trans hparent)
  unfold shown at hshown
  rw [List.cons_append] at hshown
  rcases List.mem_cons.1 hshown with hglobal | hrest
  · simp at hglobal
  · rcases List.mem_append.1 hrest with hitem | hgroup
    · obtain ⟨form', id', own', b', hform, hmem, hblock, hb', hnote'⟩ :=
        hasShownOwner (View.layout_items hc) hitem
      obtain rfl := hsame hb' hnote'
      obtain rfl := hc.blockOf?_inj hown hblock
      have hmem' : (form', Entity.item id) ∈ c.shown := by simp [shown, hmem]
      exact hform (form_unique (nodup_items_shown hc.declarations) hmem' hvalue)
    · obtain ⟨group, -, hmem⟩ := List.mem_flatMap.1 hgroup
      rcases List.mem_cons.1 hmem with hhead | hnotes
      · simp at hhead
      · obtain ⟨own', b', hblock, hb', hnote'⟩ := owner_of_mem_notes hnotes
        obtain ⟨g, hg, rfl⟩ := Option.map_eq_some_iff.1 hblock
        obtain ⟨b'', hb'', hgroupKind⟩ := block?_of_group? hc hg
        obtain rfl := Option.some.inj (hb'.symm.trans hb'')
        have heq := hsame hb' hnote'
        rw [heq, hb] at hb'
        obtain rfl := Option.some.inj hb'
        exact hkind group hgroupKind

end Catalog

end LuaGloss

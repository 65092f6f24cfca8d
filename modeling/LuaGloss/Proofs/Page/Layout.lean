import LuaGloss.Proofs.Item.Tree
import LuaGloss.Proofs.Page.Definitions
import LuaGloss.Proofs.Page.View

/-!
# What is shown where

Members and compounds are laid out one after the other: members leave parts, and
compounds put the parts of their fields on a page and leave a reference.  What
holds of every layout holds of the pages.  In particular, pages define what they
show, if it has ids.
-/

namespace LuaGloss

/-- The definition that a page is written for. -/
def Page.own (page : Page) : Definition := ⟨.compound, page.refId⟩

namespace View

open LuaGloss.Xml LuaGloss.Page LuaGloss.Press

/-- The given parts are left and the given sheets are written, and that is how
the given entities are shown. -/
inductive Layout (c : Catalog) : Parts → Sheets → List (Form × Entity) → Prop
  | nothing : Layout c .empty .empty []
  | append {p q : Parts} {s t : Sheets} {shown shown' : List (Form × Entity)} :
      Layout c p s shown → Layout c q t shown' → Layout c (p ++ q) (s ++ t)
        (shown ++ shown')
  | function (id : ItemId) (item : Item) (signature : Signature) (name : Bytes) :
      Layout c (functionParts c item signature name (c.blockNumber id)) .empty
        ((.member, .item id) :: c.notes (c.docs.blockOf? id))
  | plain (id : ItemId) (item : Item) (init : Value) (name : Bytes) :
      Layout c (variableParts c item init name (c.blockNumber id)) .empty
        ((.member, .item id) :: c.notes (c.docs.blockOf? id))
  | enumeration (id : ItemId) (item : Item) (fields : List ItemId)
      (name : Bytes) :
      Layout c (enumParts c item fields name (c.blockNumber id)) .empty
        ((.member, .item id) ::
          (fields.map fun field => (.value, .item field)) ++
          c.notes (c.docs.blockOf? id))
  | compound {id : ItemId} (item : Item) {parts : Parts} {sheets : Sheets}
      {shown : List (Form × Entity)} :
      c.kindOf id ≠ .normal → c.kindOf id ≠ .enum → Layout c parts sheets shown →
      Layout c ⟨leafLine (c.innerElement id) [attr "refid" (c.givenItemId id)],
        [], []⟩
        (sheets ++ compoundSheets c id item (c.kindOf id) (c.blockNumber id) parts)
        ((.compound, .item id) :: (c.notes (c.docs.blockOf? id) ++ shown))

theorem kindOf_of_init? {c : Catalog} {id : ItemId} {item : Item}
    (hitem : c.item? id = some item) (hinit : item.init? = none) :
    c.kindOf id = .normal := by
  simp [Catalog.kindOf, hitem, hinit]

theorem signature?_of_init? {item : Item} (hinit : item.init? = none) :
    item.signature?.isSome := by
  unfold Item.init? at hinit
  unfold Item.signature?
  split at hinit <;> simp_all

mutual

theorem exists_layout_showItem (c : Catalog) (isQualified : Bool)
    (tree : ItemTree) :
    ∃ shown, Layout c (showItem c isQualified tree).1
      (showItem c isQualified tree).2 shown ∧
      (c.declarations.Fits tree → c.shownIn tree = shown) := by
  cases tree with
  | node id fields =>
      cases hitem : c.item? id with
      | none =>
          refine ⟨[], by simpa only [showItem, hitem] using .nothing, ?_⟩
          rintro ⟨hitem', -, -⟩
          exact absurd (hitem.symm.trans hitem') nofun
      | some item =>
          rw [showItem]
          simp only [hitem]
          split
          next hinit hkind =>
            refine ⟨_, .enumeration id item _ _, fun _ => ?_⟩
            rw [Catalog.shownIn, hkind, List.map_map]
            rfl
          next init hinit hkind hsignature =>
            obtain ⟨shown, hlayout, hshown⟩ :=
              exists_layout_showItems c true fields
            refine ⟨_, .append (.plain id item init _) hlayout, ?_⟩
            rintro ⟨-, -, hfields⟩
            rw [Catalog.shownIn, hkind, hshown hfields]
          next signature hkind hsignature =>
            refine ⟨_, .function id item signature _, ?_⟩
            rintro ⟨hitem', hfunction, -⟩
            obtain rfl := Option.some.inj (hitem.symm.trans hitem')
            rw [Catalog.shownIn, hkind, hfunction (by simp [hsignature]),
              Catalog.shownInAll, List.append_nil]
          next init hinit hnotEnum hnotVariable hnotFunction =>
            have hnotNormal : c.kindOf id ≠ .normal := by
              intro hkind
              cases hsignature : item.signature? with
              | none => exact hnotVariable hkind hsignature
              | some signature => exact hnotFunction signature hkind hsignature
            obtain ⟨shown, hlayout, hshown⟩ :=
              exists_layout_showItems c false fields
            refine ⟨_, .compound item hnotNormal hnotEnum hlayout, ?_⟩
            rintro ⟨-, -, hfields⟩
            rw [Catalog.shownIn_compound hnotEnum hnotNormal, hshown hfields]
          next hinit hnotFunction =>
            have hkind := kindOf_of_init? hitem hinit
            obtain ⟨signature, hsignature⟩ :=
              Option.isSome_iff_exists.1 (signature?_of_init? hinit)
            exact (hnotFunction signature hkind hsignature).elim

theorem exists_layout_showItems (c : Catalog) (isQualified : Bool)
    (trees : List ItemTree) :
    ∃ shown, Layout c (showItems c isQualified trees).1
      (showItems c isQualified trees).2 shown ∧
      ((∀ tree ∈ trees, c.declarations.Fits tree) →
        c.shownInAll trees = shown) := by
  cases trees with
  | nil =>
      rw [showItems]
      exact ⟨[], .nothing, fun _ => by rw [Catalog.shownInAll]⟩
  | cons tree trees =>
      obtain ⟨shown, hlayout, hshown⟩ := exists_layout_showItem c isQualified tree
      obtain ⟨shown', hlayout', hshown'⟩ :=
        exists_layout_showItems c isQualified trees
      rw [showItems]
      refine ⟨_, hlayout.append hlayout', ?_⟩
      intro hfits
      obtain ⟨hfirst, hrest⟩ := List.forall_mem_cons.1 hfits
      rw [Catalog.shownInAll, hshown hfirst, hshown' hrest]

end

theorem layout_items {c : Catalog} (hc : c.Consistent) :
    Layout c (showItems c true (c.declarations.forest c.isRendered)).1
      (showItems c true (c.declarations.forest c.isRendered)).2
      (c.shownInAll (c.declarations.forest c.isRendered)) := by
  obtain ⟨shown, hlayout, hshown⟩ :=
    exists_layout_showItems c true (c.declarations.forest c.isRendered)
  rw [hshown (hc.declarations.fits_forest c.isRendered)]
  exact hlayout

end View

/-! ## Elements that define nothing -/

namespace Xml

def plainTags : List String :=
  ["para", "simplesect", "ref", "briefdescription", "detaileddescription",
    "name", "includes", "argsstring", "param",
    "declname", "type", "initializer", "compoundname", "title",
      "basecompoundref", "sectiondef"]

variable {tag : String}

theorem ownDefinition_plain (h : plainTags.contains tag = true)
    (attrs : List XmlAttr) : ownDefinition (utf8 tag) attrs = [] := by
  have hall : plainTags.all fun tag => (Form.ofTag? (utf8 tag)).isNone := by decide
  rw [List.all_eq_true] at hall
  have hnone := hall tag (List.contains_iff_mem.1 h)
  exact ownDefinition_of_none (Option.isNone_iff_eq_none.1 hnone) attrs

theorem definitionsIn_plainBlock (h : plainTags.contains tag = true)
    (attrs : List XmlAttr) (children : List Xml) :
    definitionsIn (block tag attrs children) = definitionsIn children := by
  rw [definitionsIn_block, ownDefinition_plain h, List.nil_append]

theorem definitionsIn_plainLine (h : plainTags.contains tag = true)
    (attrs : List XmlAttr) (content : Bytes) :
    definitionsIn (line tag attrs content) = [] := by
  rw [definitionsIn_line, ownDefinition_plain h]

theorem definitions_plainElement (h : plainTags.contains tag = true)
    (attrs : List XmlAttr) (children : List Xml) :
    definitions (element (utf8 tag) attrs children) = definitionsIn children := by
  rw [definitions_element, ownDefinition_plain h, List.nil_append]

theorem definitionsIn_intersperse (separator : Bytes) {xs : List Xml}
    (h : ∀ x ∈ xs, definitions x = []) :
    definitionsIn (xs.intersperse (.text separator)) = [] := by
  induction xs with
  | nil => rfl
  | cons x rest ih =>
      have hrest := ih fun y hy => h y (by simp [hy])
      cases rest with
      | nil => simpa using h
      | cons y ys => simpa [h x] using hrest

end Xml

namespace Page

open LuaGloss.Xml

theorem definitionsIn_paragraphElements (text : Bytes) :
    definitionsIn (paragraphElements text) = [] := by
  simp (disch := decide) [paragraphElements, definitionsIn_plainLine]

theorem definitionsIn_definition (kind : String) (refId : Bytes) (item : Item)
    (name : Bytes) (content : List Xml) :
    definitionsIn (definition kind refId item name content) =
      ⟨.member, refId⟩ :: definitionsIn content := by
  have hown : ownDefinition (utf8 "memberdef")
      [attr "kind" (utf8 kind), attr "id" refId, attr "prot" (utf8 "public"),
        attr "static" (if item.isLocal then utf8 "yes" else utf8 "no")] =
          [⟨.member, refId⟩] := rfl
  unfold definition location
  rw [definitionsIn_block, hown]
  simp (disch := decide) [definitionsIn_plainLine]

theorem definitionsIn_initializer (init : Value) :
    definitionsIn (initializer init) = [] := by
  unfold initializer
  split
  · rfl
  · exact definitionsIn_plainLine (by decide) _ _

theorem definitionsIn_parameters (signature : Signature) :
    definitionsIn (parameters signature) = [] := by
  have hparam (children : List Xml) (h : definitionsIn children = []) :
      (Xml.element (utf8 "param") [] children).definitions = [] := by
    rw [definitions_plainElement (by decide), h]
  unfold parameters
  dsimp only
  rw [definitionsIn_append, definitionsIn_flatMap]
  have hnamed (ident : Ident) :
      (Xml.element (utf8 "declname") [] [.text ident.name]).definitions = [] := by
    simp (disch := decide) [definitions_plainElement]
  have hrest :
      (Xml.element (utf8 "type") [] [.text (utf8 "...")]).definitions = [] := by
    simp (disch := decide) [definitions_plainElement]
  split
  · simp [hparam, hnamed, hrest]
  · simp [hparam, hnamed]

end Page

namespace View

open LuaGloss.Xml LuaGloss.Page LuaGloss.Press

theorem definitionsIn_compound (c : Catalog) (kind : String)
    (refId name : Bytes) (content : List Xml) :
    definitionsIn (compound c kind refId name content) = ⟨.compound, refId⟩ ::
      definitionsIn content := by
  have hown : ownDefinition (utf8 "compounddef")
      [attr "kind" (utf8 kind), attr "id" refId,
        attr "language" c.docs.language] = [⟨.compound, refId⟩] := rfl
  unfold compound
  rw [definitionsIn_block, hown, definitionsIn_append,
    definitionsIn_plainLine (by decide)]
  rfl

theorem definitionsIn_memberSection (members : List Xml) :
    definitionsIn (Parts.memberSection members) = definitionsIn members := by
  unfold Parts.memberSection
  split
  next hempty => rw [List.isEmpty_iff.1 hempty]
  next => exact definitionsIn_plainBlock (by decide) _ _


variable (c : Catalog)

theorem definitions_seeAlso (see : SeeAlso) :
    definitions (seeAlso c see) = [] := by
  unfold seeAlso
  split
  · exact definitions_text _
  · rw [definitions_plainElement (by decide)]
    simp

theorem definitionsIn_description (id : BlockId) :
    definitionsIn (description c id) = [] := by
  have hreferences (seeAlsos : List SeeAlso) :
      definitionsIn (references c seeAlsos) = [] := by
    have hseeAlsos : ∀ x ∈ seeAlsos.map (seeAlso c), definitions x = [] := by
      simp [definitions_seeAlso]
    have hnames := definitionsIn_intersperse (utf8 ", ") hseeAlsos
    unfold references
    split
    · rfl
    · simp (disch := decide) [definitions_plainElement, hnames]
  unfold description
  split
  · rfl
  · simp (disch := decide) [definitionsIn_plainBlock,
      definitionsIn_paragraphElements, hreferences]

theorem definitionsIn_baseReferences (id : ItemId) :
    definitionsIn (baseReferences c id) = [] := by
  unfold baseReferences
  dsimp only
  split
  · rfl
  · split
    · exact definitionsIn_plainLine (by decide) _ _
    · exact definitionsIn_plainLine (by decide) _ _

theorem definitionsIn_imports (id : BlockId) :
    definitionsIn (imports c id) = [] := by
  unfold imports
  split
  · rfl
  · simp (disch := decide) [definitionsIn_plainLine]

/-! ## Definitions -/

theorem definitionsIn_footnote (note : BlockId) :
    definitionsIn (footnote c note) = [⟨.member, c.givenId note⟩] := by
  unfold footnote
  rw [definitionsIn_block, definitionsIn_append,
    definitionsIn_plainLine (by decide), definitionsIn_description]
  rfl

end View

namespace Catalog

open LuaGloss.View

variable {c : Catalog}

theorem refIdOf?_item {id : ItemId} (h : (c.refIdOf? (.item id)).isSome) :
    c.docs.blockOf? id = some (c.blockNumber id) ∧
    c.refIdOf? (.item id) = some (c.givenItemId id) := by
  obtain ⟨refId, hrefId⟩ := Option.isSome_iff_exists.1 h
  obtain ⟨b, hb, hgiven⟩ := Option.bind_eq_some_iff.1 hrefId
  obtain ⟨own, hown, hblock⟩ := Option.bind_eq_some_iff.1 hb
  have hown : c.docs.blockOf? id = some own := hown
  have hnumber : c.blockNumber id = own := by simp [blockNumber, hown]
  refine ⟨by rw [hnumber, hown], ?_⟩
  rw [hrefId, givenItemId, hnumber, givenId, hblock, Option.bind_some, hgiven,
    Option.getD_some]

theorem defines_flatMap {lines : α → List Xml} {entity : α → Form × Entity}
    {as : List α}
    (h : ∀ a ∈ as, c.Defines (Xml.definitionsIn (lines a)) [entity a]) :
    c.Defines (Xml.definitionsIn (as.flatMap lines)) (as.map entity) := by
  induction as with
  | nil => exact .nil c
  | cons a as ih =>
      obtain ⟨hfirst, hrest⟩ := List.forall_mem_cons.1 h
      rw [List.flatMap_cons, Xml.definitionsIn_append]
      exact hfirst.append (ih hrest)

theorem Names.defines_footnotes {own : BlockId}
    (h : c.Names (c.notes (some own))) :
    c.Defines (Xml.definitionsIn (footnotes c own)) (c.notes (some own)) := by
  unfold notes at h ⊢
  unfold footnotes
  cases hb : c.docs.block? own with
  | none =>
      rw [Option.bind_some, hb]
      exact .nil c
  | some b =>
      rw [Option.bind_some, hb] at h ⊢
      apply defines_flatMap
      intro note hnote
      obtain ⟨refId, hrefId⟩ :=
        Option.isSome_iff_exists.1 (h _ (List.mem_map_of_mem hnote))
      have hgiven : c.givenId note = refId := congrArg (Option.getD · []) hrefId
      rw [definitionsIn_footnote, hgiven]
      exact .single hrefId

@[simp] theorem filter_compound_notes (block : Option BlockId) :
    (c.notes block).filter (·.1 = .compound) = [] := by
  simp [notes]

/-- What the press has written: the pages define what there is to show, and each
page is that of one compound. -/
structure Shows (c : Catalog) (pages : List Page) : Prop where
  definitions : c.Defines (pages.flatMap Page.definitions) c.shown
  own : c.Defines (pages.map Page.own) (c.shown.filter (·.1 = .compound))

end Catalog

namespace View

open LuaGloss.Xml LuaGloss.Page LuaGloss.Press

variable {c : Catalog}

/-- The parts refer to inner compounds.  Their members and the pages are the
definitions of what is shown, and each page is that of one of the compounds. -/
structure Defined (c : Catalog) (parts : Parts) (sheets : Sheets)
    (shown : List (Form × Entity)) : Prop where
  inner : definitionsIn parts.inner = []
  all : c.Defines (definitionsIn parts.members ++
    sheets.pages.flatMap Page.definitions) shown
  own : c.Defines (sheets.pages.map Page.own) (shown.filter (·.1 = .compound))

namespace Defined

theorem nothing : Defined c .empty .empty [] := ⟨rfl, .nil c, .nil c⟩

theorem members {members index : List Xml} {shown : List (Form × Entity)}
    (h : c.Defines (definitionsIn members) shown)
    (hshown : shown.filter (·.1 = .compound) = []) :
    Defined c ⟨[], members, index⟩ .empty shown := by
  refine ⟨rfl, ?_, ?_⟩
  · rw [Sheets.empty, List.flatMap_nil, List.append_nil]
    exact h
  · rw [hshown]
    exact .nil c

theorem append {p q : Parts} {s t : Sheets}
    {shown shown' : List (Form × Entity)} (h : Defined c p s shown)
    (h' : Defined c q t shown') :
    Defined c (p ++ q) (s ++ t) (shown ++ shown') := by
  constructor
  · change definitionsIn (p.inner ++ q.inner) = []
    rw [definitionsIn_append, h.inner, h'.inner]
    rfl
  · change c.Defines (definitionsIn (p.members ++ q.members) ++
      (s.pages ++ t.pages).flatMap Page.definitions) _
    apply (h.all.append h'.all).perm _ (.refl _)
    rw [definitionsIn_append, List.flatMap_append, List.append_assoc,
      List.append_assoc]
    apply List.Perm.append_left
    rw [← List.append_assoc, ← List.append_assoc]
    exact List.perm_append_comm.append_right _
  · rw [Sheets.pages_append, List.map_append, List.filter_append]
    exact h.own.append h'.own

theorem page {parts : Parts} {sheets : Sheets}
    {shown notes : List (Form × Entity)} (h : Defined c parts sheets shown)
    {entity : Entity} {refId : Bytes} {content inner index : List Xml}
    {ds : List Definition} (hrefId : c.refIdOf? entity = some refId)
    (hcontent : definitionsIn content = ⟨.compound, refId⟩ ::
      (definitionsIn parts.members ++ ds))
    (hnotes : c.Defines ds notes)
    (hmembers : notes.filter (·.1 = .compound) = [])
    (hinner : definitionsIn inner = []) :
    Defined c ⟨inner, [], []⟩ (sheets ++ ⟨index, [⟨refId, content⟩]⟩)
      ((.compound, entity) :: (notes ++ shown)) := by
  refine ⟨hinner, ?_, ?_⟩
  · apply ((Catalog.Defines.single hrefId).append (hnotes.append h.all)).perm _
      (.refl _)
    have hpage : Page.definitions ⟨refId, content⟩ = ⟨.compound, refId⟩ ::
        (definitionsIn parts.members ++ ds) := hcontent
    simp only [definitionsIn_nil, List.nil_append, Sheets.pages_append,
      List.flatMap_append, List.flatMap_singleton, hpage, List.singleton_append]
    apply List.perm_append_comm.trans
    rw [List.cons_append, ← List.append_assoc]
    exact (List.perm_append_comm.append_right _).cons _
  · have hfilter :
        ((Form.compound, entity) :: (notes ++ shown)).filter (·.1 = .compound) =
        [(.compound, entity)] ++ shown.filter (·.1 = .compound) := by
      simp [hmembers]
    rw [hfilter, Sheets.pages_append, List.map_append]
    exact ((Catalog.Defines.single hrefId).append h.own).perm
      List.perm_append_comm (.refl _)

theorem global {parts : Parts} {sheets : Sheets} {shown : List (Form × Entity)}
    (h : Defined c parts sheets shown) :
    Defined c .empty (sheets ++ globalSheets c parts)
      ((.compound, .global) :: shown) := by
  have hrefId : c.refIdOf? .global = some Docs.globalId := rfl
  refine h.page hrefId ?_ (.nil c) rfl definitionsIn_nil
  rw [definitionsIn_compound, definitionsIn_append, definitionsIn_memberSection,
    h.inner, List.append_nil]
  rfl

end Defined

theorem defines_member {id : ItemId} {values : List (Form × Entity)}
    {ds : List Definition}
    (h : c.Names ((.member, .item id) :: values ++ c.notes (c.docs.blockOf? id)))
    (hvalues : c.Defines ds values) :
    c.Defines (⟨.member, c.givenItemId id⟩ :: ds ++
      definitionsIn (footnotes c (c.blockNumber id)))
      ((.member, .item id) :: values ++ c.notes (c.docs.blockOf? id)) := by
  obtain ⟨hitem, hnotes⟩ := Catalog.names_append.1 h
  obtain ⟨hown, hrefId⟩ := Catalog.refIdOf?_item (Catalog.names_cons.1 hitem).1
  rw [hown] at hnotes ⊢
  exact ((Catalog.Defines.single hrefId).append hvalues).append
    hnotes.defines_footnotes

theorem definitionsIn_enumValue {id : ItemId}
    (hid : id < c.declarations.items.size) :
    definitionsIn (enumValue c id).1 = [⟨.value, c.givenItemId id⟩] := by
  obtain ⟨item, hitem⟩ : ∃ item, c.item? id = some item :=
    Option.isSome_iff_exists.1 (Declarations.item?_isSome.2 hid)
  have hown : ownDefinition (utf8 "enumvalue") [attr "id" (c.givenItemId id),
      attr "prot" (utf8 "public")] =
      [⟨.value, c.givenItemId id⟩] := rfl
  have hinit : definitionsIn ((item.init?.map initializer).getD []) = [] := by
    cases item.init? with
    | none => rfl
    | some init => exact definitionsIn_initializer init
  simp only [enumValue, hitem]
  rw [definitionsIn_block, hown]
  simp (disch := decide) [definitionsIn_plainLine, hinit,
    definitionsIn_description]

/-- Whatever is laid out is defined by what is left and written, if it has
ids. -/
theorem Layout.defined {parts : Parts} {sheets : Sheets}
    {shown : List (Form × Entity)} (h : Layout c parts sheets shown)
    (hc : c.Consistent) (hnames : c.Names shown) :
    Defined c parts sheets shown := by
  induction h with
  | nothing => exact .nothing
  | append _ _ ih ih' =>
      obtain ⟨hnames, hnames'⟩ := Catalog.names_append.1 hnames
      exact (ih hnames).append (ih' hnames')
  | function id item signature name =>
      have hcontent :
          definitionsIn (line "argsstring" [] signature.argsText ++
            parameters signature ++
          description c (c.blockNumber id)) = [] := by
        simp (disch := decide) [definitionsIn_plainLine,
          definitionsIn_parameters, definitionsIn_description]
      refine .members ?_ (by simp)
      rw [definitionsIn_append, definitionsIn_definition, hcontent]
      exact defines_member hnames (.nil c)
  | plain id item init name =>
      have hcontent :
          definitionsIn (initializer init ++ description c (c.blockNumber id)) =
            [] := by
        simp [definitionsIn_initializer, definitionsIn_description]
      refine .members ?_ (by simp)
      rw [definitionsIn_append, definitionsIn_definition, hcontent]
      exact defines_member hnames (.nil c)
  | enumeration id item fields name =>
      have hvalues :
          c.Defines (definitionsIn ((fields.map (enumValue c)).flatMap Prod.fst))
          (fields.map fun field => (.value, .item field)) := by
        rw [List.flatMap_map]
        apply Catalog.defines_flatMap
        intro field hfield
        obtain ⟨hown, hrefId⟩ :=
          Catalog.refIdOf?_item (hnames (.value, .item field) (by simp [hfield]))
        rw [definitionsIn_enumValue (hc.docs.attached.bound field _ hown)]
        exact .single hrefId
      refine .members ?_ (by simp)
      rw [definitionsIn_append, definitionsIn_definition, definitionsIn_append,
        definitionsIn_description, List.append_nil]
      exact defines_member hnames hvalues
  | @compound id item parts sheets shown hnotNormal hnotEnum _ ih =>
      obtain ⟨hitem, hrest⟩ := Catalog.names_cons.1 hnames
      obtain ⟨hnotes, hshown⟩ := Catalog.names_append.1 hrest
      obtain ⟨hown, hrefId⟩ := Catalog.refIdOf?_item hitem
      have hdefined := ih hshown
      rw [hown] at hnotes ⊢
      refine hdefined.page hrefId ?_ hnotes.defines_footnotes (by simp)
        (definitionsIn_leafLine _ _)
      rw [definitionsIn_compound]
      simp [definitionsIn_memberSection, definitionsIn_imports,
        definitionsIn_baseReferences, hdefined.inner,
        definitionsIn_description, location]

/-! ## Groups -/

theorem definitionsIn_groupPage (c : Catalog) (group : Group) :
    definitionsIn (groupPage c group) =
      ⟨.compound, c.givenId group.block⟩ ::
        definitionsIn (footnotes c group.block) := by
  have hitem (id : ItemId) : definitionsIn (groupItem c id).1 = [] ∧
      definitionsIn (groupItem c id).2 = [] := by
    unfold groupItem
    split <;> simp
  have hinner (id : GroupId) : definitionsIn (innerGroup c id) = [] := by
    unfold innerGroup
    split <;> simp
  have hnone (n : List Nat) : n.flatMap (fun _ => ([] : List Definition)) =
      [] := by simp [List.flatMap_eq_nil_iff]
  unfold groupPage
  rw [definitionsIn_compound]
  simp (disch := decide) [definitionsIn_plainLine, definitionsIn_memberSection,
    definitionsIn_imports, definitionsIn_description, List.flatMap_map, hitem,
    hinner, hnone]

theorem defined_groupSheets {id : GroupId} (hid : (c.docs.group? id).isSome)
    (hnames : c.Names (c.shownOfGroup id)) :
    Defined c .empty (groupSheets c id) (c.shownOfGroup id) := by
  obtain ⟨group, hgroup⟩ := Option.isSome_iff_exists.1 hid
  simp only [Catalog.shownOfGroup, groupSheets, hgroup,
    Option.map_some] at hnames ⊢
  obtain ⟨hitem, hnotes⟩ := Catalog.names_cons.1 hnames
  obtain ⟨refId, hrefId⟩ := Option.isSome_iff_exists.1 hitem
  have hgiven : (c.refIdOf? (.group id)).getD [] = c.givenId group.block := by
    simp [Catalog.givenId, Catalog.refIdOf?, Catalog.ownBlock?, hgroup]
  rw [hrefId, Option.getD_some] at hgiven
  rw [hgiven] at hrefId
  rw [← List.append_nil (c.notes _)]
  exact Defined.nothing.page hrefId (definitionsIn_groupPage c group)
    hnotes.defines_footnotes (by simp) rfl

theorem defined_groupsSheets {ids : List GroupId}
    (hids : ∀ id ∈ ids, (c.docs.group? id).isSome)
    (hnames : c.Names (ids.flatMap c.shownOfGroup)) :
    Defined c .empty (groupsSheets c ids) (ids.flatMap c.shownOfGroup) := by
  induction ids with
  | nil => exact .nothing
  | cons id ids ih =>
      obtain ⟨hid, hids⟩ := List.forall_mem_cons.1 hids
      rw [List.flatMap_cons] at hnames ⊢
      obtain ⟨hfirst, hrest⟩ := Catalog.names_append.1 hnames
      exact (defined_groupSheets hid hfirst).append (ih hids hrest)

/-- If everything that there is to show has an id, the pages define it. -/
theorem shows_sheets (hc : c.Consistent) (hnames : c.Names c.shown) :
    c.Shows (sheets c).pages := by
  have hlisted : ∀ id ∈ c.docs.listedGroups, (c.docs.group? id).isSome := by
    intro id hid
    simpa [Docs.groupLinks?] using hc.docs.grouped.listed id hid
  unfold Catalog.shown at hnames
  obtain ⟨hitems, hgroups⟩ := Catalog.names_append.1 hnames
  have hdefined := (layout_items hc).defined hc (Catalog.names_cons.1 hitems).2
  have hall := hdefined.global.append (defined_groupsSheets hlisted hgroups)
  exact ⟨hall.all, hall.own⟩

end View

end LuaGloss

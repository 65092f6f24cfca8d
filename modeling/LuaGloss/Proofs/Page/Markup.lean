import LuaGloss.Proofs.Page.Layout
import LuaGloss.Proofs.Xml.Grammar

/-!
# Pages are proper trees

The names of elements and attributes are fixed.  Values are fixed words,
numbers, reference ids and the language, which are harmless as they are, and
file names, which are escaped.  Everything else is text, and text is always
escaped when it is written.
-/

namespace LuaGloss

/-- What is written as a value without being escaped does no harm. -/
structure Catalog.Harmless (c : Catalog) : Prop where
  language : Xml.IsValue c.docs.language
  ids : ∀ block, Xml.IsValue (c.givenId block)

namespace Page

open LuaGloss.Xml

theorem properAttrs_singleton {name : String} {value : Bytes}
    (hname : isName (utf8 name) = true) (hvalue : IsValue value) :
    ProperAttrs [attr name value] :=
  ⟨by simp [areNames, attr, hname], by simpa [attr] using hvalue⟩

theorem properAll_paragraphElements (text : Bytes) :
    ProperAll (paragraphElements text) := by
  apply properAll_flatMap
  intro paragraph _
  exact properAll_line.2 ⟨by decide, properAttrs_nil⟩

theorem properAll_intersperse (separator : Bytes) {xs : List Xml}
    (h : ∀ x ∈ xs, Proper x) :
    ProperAll (xs.intersperse (.text separator)) := by
  induction xs with
  | nil => exact properAll_nil
  | cons x rest ih =>
      obtain ⟨hx, hrest⟩ := List.forall_mem_cons.1 h
      cases rest with
      | nil => simpa using hx
      | cons y ys => simpa [hx] using ih hrest

theorem properAll_location (item : Item) : ProperAll (location item) := by
  refine properAll_leafLine.2 ⟨by decide, rfl, ?_⟩
  simp [attr, escapedAttr, isValue_escape, isValue_of_isId (isId_ofNat _)]

theorem properAll_initializer (init : Value) : ProperAll (initializer init) := by
  unfold initializer
  split
  · exact properAll_nil
  · exact properAll_line.2 ⟨by decide, properAttrs_nil⟩

theorem properAll_parameters (signature : Signature) :
    ProperAll (parameters signature) := by
  have hparam (tag : String) (htag : isName (utf8 tag) = true) (content : Bytes) :
      ProperAll [.element (utf8 "param") []
        [.element (utf8 tag) [] [.text content]], lineBreak] := by
    simp only [properAll_cons, proper_element, properAttrs_nil, proper_text,
      proper_lineBreak, properAll_nil, htag, and_true]
    decide
  unfold parameters
  refine properAll_append.2 ⟨properAll_flatMap fun ident _ =>
    hparam "declname" (by decide) ident.name, ?_⟩
  split
  · exact hparam "type" (by decide) _
  · exact properAll_nil

theorem properAll_indexEntry {kind : String} {refId : Bytes}
    (hkind : (utf8 kind).all isValueByte = true) (hrefId : IsValue refId)
    (name : Bytes) : ProperAll (indexEntry kind refId name) := by
  have hattrs : ProperAttrs [attr "kind" (utf8 kind), attr "refid" refId] :=
    ⟨rfl, by simpa [attr] using ⟨IsText.of_all hkind, hrefId⟩⟩
  simp only [indexEntry, properAll_cons, proper_element, properAll_nil,
    proper_lineBreak, proper_text, properAttrs_nil, hattrs, and_true]
  decide

theorem properAll_definition {kind : String} {refId : Bytes}
    (hkind : (utf8 kind).all isValueByte = true) (hrefId : IsValue refId)
    (item : Item) (name : Bytes) {content : List Xml}
    (hcontent : ProperAll content) :
    ProperAll (definition kind refId item name content) := by
  have hstatic : IsValue (if item.isLocal then utf8 "yes" else utf8 "no") := by
    split
    · exact IsText.of_all (by decide)
    · exact IsText.of_all (by decide)
  have hpublic : IsValue (utf8 "public") := IsText.of_all (by decide)
  refine properAll_block.2 ⟨by decide, ⟨rfl, ?_⟩, ?_⟩
  · simpa [attr] using ⟨IsText.of_all hkind, hrefId, hpublic, hstatic⟩
  · simp only [properAll_append, properAll_line, properAttrs_nil, hcontent,
      properAll_location, and_true]
    decide

theorem properAll_memberSection {members : List Xml} (h : ProperAll members) :
    ProperAll (Parts.memberSection members) := by
  unfold Parts.memberSection
  split
  · exact properAll_nil
  · exact properAll_block.2 ⟨by decide, properAttrs_nil, h⟩

theorem properAll_imports (c : Catalog) (id : BlockId) :
    ProperAll (imports c id) := by
  unfold imports
  split
  · exact properAll_nil
  · exact properAll_flatMap fun _ _ =>
      properAll_line.2 ⟨by decide, properAttrs_nil⟩

/-- All parts that go into pages and into the index are proper. -/
structure Parts.Proper (parts : Parts) : Prop where
  inner : ProperAll parts.inner
  members : ProperAll parts.members
  index : ProperAll parts.index

namespace Parts.Proper

theorem empty : Parts.Proper .empty :=
  ⟨properAll_nil, properAll_nil, properAll_nil⟩

theorem append {p q : Parts} (hp : p.Proper) (hq : q.Proper) : (p ++ q).Proper :=
  ⟨properAll_append.2 ⟨hp.inner, hq.inner⟩,
    properAll_append.2 ⟨hp.members, hq.members⟩,
    properAll_append.2 ⟨hp.index, hq.index⟩⟩

end Parts.Proper

end Page

/-- The index and all pages are proper. -/
structure Sheets.Proper (sheets : Sheets) : Prop where
  index : Xml.ProperAll sheets.index
  pages : ∀ page ∈ sheets.pages, Xml.ProperAll page.content

namespace Sheets.Proper

theorem empty : Sheets.Proper .empty := ⟨Xml.properAll_nil, nofun⟩

theorem append {s t : Sheets} (hs : s.Proper) (ht : t.Proper) :
    (s ++ t).Proper := by
  refine ⟨Xml.properAll_append.2 ⟨hs.index, ht.index⟩, ?_⟩
  intro page hpage
  rcases List.mem_append.1 hpage with hfirst | hsecond
  · exact hs.pages page hfirst
  · exact ht.pages page hsecond

end Sheets.Proper

namespace View

open LuaGloss.Xml LuaGloss.Page LuaGloss.Press

variable {c : Catalog}

section

variable (hc : c.Harmless)

include hc

/-! ## Members -/

theorem proper_seeAlso (see : SeeAlso) : Proper (seeAlso c see) := by
  unfold seeAlso
  split
  · exact proper_text _
  next item _ =>
    have hkind : IsValue (if (c.innerElement item).isEmpty then utf8 "member"
        else utf8 "compound") := by
      split
      · exact IsText.of_all (by decide)
      · exact IsText.of_all (by decide)
    have hid : IsValue (c.givenItemId item) := hc.ids _
    refine proper_element.2 ⟨by decide, ⟨rfl, ?_⟩, by simp⟩
    simpa [attr, -List.isEmpty_iff] using ⟨hid, hkind⟩

theorem properAll_references (seeAlsos : List SeeAlso) :
    ProperAll (references c seeAlsos) := by
  have hseeAlsos : ∀ x ∈ seeAlsos.map (seeAlso c), Proper x := by
    simp [proper_seeAlso hc]
  have hnames := properAll_intersperse (utf8 ", ") hseeAlsos
  unfold references
  split
  · exact properAll_nil
  · have hsee : ProperAttrs [attr "kind" (utf8 "see")] :=
      properAttrs_singleton (by decide) (IsText.of_all (by decide))
    simp only [properAll_cons, proper_element, properAll_nil, proper_lineBreak,
      properAttrs_nil, hsee, hnames, and_true]
    decide

theorem properAll_description (id : BlockId) : ProperAll (description c id) := by
  unfold description
  split
  · exact properAll_nil
  · simp only [properAll_append, properAll_block, properAttrs_nil,
      properAll_paragraphElements, properAll_references hc, and_true]
    decide

theorem properAll_footnote (id : BlockId) : ProperAll (footnote c id) := by
  have hkind : IsValue (utf8 "footnote") := IsText.of_all (by decide)
  refine properAll_block.2 ⟨by decide, ⟨rfl, ?_⟩, ?_⟩
  · simpa [attr] using ⟨hkind, hc.ids id⟩
  · exact properAll_append.2 ⟨properAll_line.2 ⟨by decide, properAttrs_nil⟩,
      properAll_description hc id⟩

theorem properAll_footnotes (id : BlockId) : ProperAll (footnotes c id) := by
  unfold footnotes
  split
  · exact properAll_nil
  · exact properAll_flatMap fun note _ => properAll_footnote hc note

theorem proper_functionParts (item : Item) (signature : Signature)
    (name : Bytes) (id : BlockId) :
    (functionParts c item signature name id).Proper := by
  have hcontent :
      ProperAll (line "argsstring" [] signature.argsText ++
        parameters signature ++ description c id) := by
    simp only [properAll_append, properAll_line, properAttrs_nil,
      properAll_parameters, properAll_description hc, and_true]
    decide
  refine ⟨properAll_nil, properAll_append.2 ⟨?_, properAll_footnotes hc id⟩, ?_⟩
  · exact properAll_definition (by decide) (hc.ids id) item name hcontent
  · exact properAll_indexEntry (by decide) (hc.ids id) name

theorem proper_variableParts (item : Item) (init : Value) (name : Bytes)
    (id : BlockId) : (variableParts c item init name id).Proper := by
  have hcontent : ProperAll (initializer init ++ description c id) :=
    properAll_append.2 ⟨properAll_initializer init, properAll_description hc id⟩
  refine ⟨properAll_nil, properAll_append.2 ⟨?_, properAll_footnotes hc id⟩, ?_⟩
  · exact properAll_definition (by decide) (hc.ids id) item name hcontent
  · exact properAll_indexEntry (by decide) (hc.ids id) name

theorem properAll_enumValue (id : ItemId) :
    ProperAll (enumValue c id).1 ∧ ProperAll (enumValue c id).2 := by
  unfold enumValue
  split
  · exact ⟨properAll_nil, properAll_nil⟩
  next item _ =>
    have hinit : ProperAll ((item.init?.map initializer).getD []) := by
      cases item.init? with
      | none => exact properAll_nil
      | some init => exact properAll_initializer init
    have hid : IsValue (c.givenItemId id) := hc.ids _
    have hpublic : IsValue (utf8 "public") := IsText.of_all (by decide)
    refine ⟨properAll_block.2 ⟨by decide, ⟨rfl, ?_⟩, ?_⟩,
      properAll_indexEntry (by decide) hid _⟩
    · simpa [attr] using ⟨hid, hpublic⟩
    · simp only [properAll_append, properAll_line, properAttrs_nil, hinit,
        properAll_description hc, and_true]
      decide

theorem proper_enumParts (item : Item) (fields : List ItemId) (name : Bytes)
    (id : BlockId) : (enumParts c item fields name id).Proper := by
  have hvalues : ProperAll ((fields.map (enumValue c)).flatMap Prod.fst) ∧
      ProperAll ((fields.map (enumValue c)).flatMap Prod.snd) := by
    simp only [List.flatMap_map]
    exact ⟨properAll_flatMap fun field _ => (properAll_enumValue hc field).1,
      properAll_flatMap fun field _ => (properAll_enumValue hc field).2⟩
  have hcontent := properAll_append.2 ⟨hvalues.1, properAll_description hc id⟩
  refine ⟨properAll_nil, properAll_append.2 ⟨?_, properAll_footnotes hc id⟩,
    properAll_append.2 ⟨?_, hvalues.2⟩⟩
  · exact properAll_definition (by decide) (hc.ids id) item name hcontent
  · exact properAll_indexEntry (by decide) (hc.ids id) name

/-! ## Compounds -/

theorem properAll_compound {kind : String} {refId : Bytes}
    (hkind : (utf8 kind).all isValueByte = true) (hrefId : IsValue refId)
    (name : Bytes) {content : List Xml} (hcontent : ProperAll content) :
    ProperAll (compound c kind refId name content) := by
  refine properAll_block.2 ⟨by decide, ⟨rfl, ?_⟩, ?_⟩
  · simpa [attr] using ⟨IsText.of_all hkind, hrefId, hc.language⟩
  · exact properAll_append.2
      ⟨properAll_line.2 ⟨by decide, properAttrs_nil⟩, hcontent⟩

omit hc in
theorem properAll_indexCompound {kind : String} {refId : Bytes}
    (hkind : (utf8 kind).all isValueByte = true) (hrefId : IsValue refId)
    (name : Bytes) {entries : List Xml} (hentries : ProperAll entries) :
    ProperAll (indexCompound kind refId name entries) := by
  have hattrs : ProperAttrs [attr "kind" (utf8 kind), attr "refid" refId] :=
    ⟨rfl, by simpa [attr] using ⟨IsText.of_all hkind, hrefId⟩⟩
  simp only [indexCompound, properAll_cons, proper_element, properAll_nil,
    proper_lineBreak, proper_text, properAttrs_nil, hattrs, hentries, and_true]
  decide

omit hc in
theorem all_isValueByte_compoundKind (kind : VariableKind) :
    (utf8 (compoundKind kind)).all isValueByte = true := by
  cases kind <;> decide

theorem properAll_baseReferences (id : ItemId) :
    ProperAll (baseReferences c id) := by
  have hpublic : IsValue (utf8 "public") := IsText.of_all (by decide)
  have hvirtual : IsValue (utf8 "non-virtual") := IsText.of_all (by decide)
  unfold baseReferences
  dsimp only
  split
  · exact properAll_nil
  · split
    next target _ =>
      have hid : IsValue (c.givenItemId target) := hc.ids _
      refine properAll_line.2 ⟨by decide, rfl, ?_⟩
      simpa [attr] using ⟨hid, hpublic, hvirtual⟩
    next =>
      refine properAll_line.2 ⟨by decide, rfl, ?_⟩
      simpa [attr] using ⟨hpublic, hvirtual⟩

theorem proper_compoundSheets (id : ItemId) (item : Item) (kind : VariableKind)
    (own : BlockId) {parts : Parts} (hparts : parts.Proper) :
    (compoundSheets c id item kind own parts).Proper := by
  have hkind := all_isValueByte_compoundKind kind
  have hindex : ProperAll (lineBreak :: parts.index) := by simp [hparts.index]
  have hsection :=
    properAll_memberSection
      (properAll_append.2 ⟨hparts.members, properAll_footnotes hc own⟩)
  refine ⟨properAll_indexCompound hkind (hc.ids own) _ hindex, ?_⟩
  intro page hpage
  rw [List.mem_singleton.1 hpage]
  apply properAll_compound hc hkind (hc.ids own)
  simp only [properAll_append, properAll_baseReferences hc, hparts.inner,
    hsection, properAll_imports, properAll_description hc,
    properAll_location, and_self]

omit hc in
theorem isName_innerElement {id : ItemId} (hnotNormal : c.kindOf id ≠ .normal)
    (hnotEnum : c.kindOf id ≠ .enum) : isName (c.innerElement id) = true := by
  unfold Catalog.innerElement
  split
  · decide
  · decide
  · decide
  next hnormal => exact (hnotNormal hnormal).elim
  next henum => exact (hnotEnum henum).elim

theorem properAll_itemLine {tag : Bytes} {name : String}
    (htag : isName tag = true) (hname : isName (utf8 name) = true) (id : ItemId) :
    ProperAll (leafLine tag [attr name (c.givenItemId id)]) :=
  properAll_leafLine.2 ⟨htag, properAttrs_singleton hname (hc.ids _)⟩

end

theorem Layout.proper {parts : Parts} {sheets : Sheets}
    {shown : List (Form × Entity)} (hc : c.Harmless)
    (h : Layout c parts sheets shown) : parts.Proper ∧ sheets.Proper := by
  induction h with
  | nothing => exact ⟨.empty, .empty⟩
  | append _ _ ih ih' => exact ⟨ih.1.append ih'.1, ih.2.append ih'.2⟩
  | function id item signature name =>
      exact ⟨proper_functionParts hc item signature name _, .empty⟩
  | plain id item init name =>
      exact ⟨proper_variableParts hc item init name _, .empty⟩
  | enumeration id item fields name =>
      exact ⟨proper_enumParts hc item fields name _, .empty⟩
  | @compound id item _ _ _ hnotNormal hnotEnum _ ih =>
      obtain ⟨hparts, hsheets⟩ := ih
      have hname := isName_innerElement hnotNormal hnotEnum
      exact ⟨⟨properAll_itemLine hc hname (by decide) id, properAll_nil,
        properAll_nil⟩,
        hsheets.append (proper_compoundSheets hc id item _ _ hparts)⟩

theorem proper_itemSheets (hc : c.Harmless) : (itemSheets c).Proper := by
  obtain ⟨_, hlayout, -⟩ :=
    exists_layout_showItems c true (c.declarations.forest c.isRendered)
  obtain ⟨hparts, hsheets⟩ := hlayout.proper hc
  have hid : IsValue Docs.globalId := IsText.of_all (by decide)
  have hindex :
      ProperAll (lineBreak ::
        (showItems c true (c.declarations.forest c.isRendered)).1.index) := by
    simp [hparts.index]
  refine hsheets.append ⟨properAll_indexCompound (by decide) hid _ hindex, ?_⟩
  intro page hpage
  rw [List.mem_singleton.1 hpage]
  apply properAll_compound hc (by decide) hid
  exact properAll_append.2 ⟨hparts.inner, properAll_memberSection hparts.members⟩

/-! ## Groups -/

theorem properAll_groupItem (hc : c.Harmless) (id : ItemId) :
    ProperAll (groupItem c id).1 ∧ ProperAll (groupItem c id).2 := by
  unfold groupItem
  split
  · exact ⟨properAll_nil, properAll_itemLine hc (by decide) (by decide) id⟩
  next helement =>
    have hnotNormal : c.kindOf id ≠ .normal := by
      intro hnormal
      simp [Catalog.innerElement, hnormal] at helement
    have hnotEnum : c.kindOf id ≠ .enum := by
      intro henum
      simp [Catalog.innerElement, henum] at helement
    exact ⟨properAll_itemLine hc (isName_innerElement hnotNormal hnotEnum)
      (by decide) id, properAll_nil⟩

theorem properAll_innerGroup (hc : c.Harmless) (id : GroupId) :
    ProperAll (innerGroup c id) := by
  unfold innerGroup
  split
  · exact properAll_nil
  next group _ =>
    exact properAll_leafLine.2
      ⟨by decide, properAttrs_singleton (by decide) (hc.ids group.block)⟩

theorem properAll_groupPage (hc : c.Harmless) (group : Group) :
    ProperAll (groupPage c group) := by
  have hinner : ProperAll ((group.items.map (groupItem c)).flatMap Prod.fst) := by
    rw [List.flatMap_map]
    exact properAll_flatMap fun item _ => (properAll_groupItem hc item).1
  have hmembers :
      ProperAll ((group.items.map (groupItem c)).flatMap Prod.snd) := by
    rw [List.flatMap_map]
    exact properAll_flatMap fun item _ => (properAll_groupItem hc item).2
  have hsection :=
    properAll_memberSection
      (properAll_append.2 ⟨hmembers, properAll_footnotes hc group.block⟩)
  have hgroups : ProperAll (group.groups.flatMap (innerGroup c)) :=
    properAll_flatMap fun inner _ => properAll_innerGroup hc inner
  apply properAll_compound hc (by decide) (hc.ids group.block)
  simp only [properAll_append, properAll_line, properAttrs_nil, hinner,
    hsection, hgroups, properAll_imports, properAll_description hc, and_true]
  decide

theorem proper_groupSheets (hc : c.Harmless) (id : GroupId) :
    (groupSheets c id).Proper := by
  unfold groupSheets
  split
  · exact .empty
  next group _ =>
    refine ⟨properAll_indexCompound (by decide) (hc.ids group.block) _
      properAll_nil, ?_⟩
    intro page hpage
    rw [List.mem_singleton.1 hpage]
    exact properAll_groupPage hc group

theorem proper_groupsSheets (hc : c.Harmless) (ids : List GroupId) :
    (groupsSheets c ids).Proper := by
  induction ids with
  | nil => exact .empty
  | cons id ids ih => exact (proper_groupSheets hc id).append ih

/-- All that is written is proper, if what is not escaped does no harm. -/
theorem proper_sheets (hc : c.Harmless) : (sheets c).Proper :=
  (proper_itemSheets hc).append (proper_groupsSheets hc _)

end View

end LuaGloss

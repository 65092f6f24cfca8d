import LuaGloss.Proofs.Page.Layout

/-!
# The index and the contents of pages

The contents of a page are its own heading and the headings of its members, as
they can be read off the page.  The index lists contents.  It is put together
beside the pages, and both agree, page by page and member by member; only the
members of groups, which are defined on other pages, are not listed.
-/

namespace LuaGloss

/-- The kind, the id and the name of something. -/
structure Heading where
  kind : Bytes
  id : Bytes
  name : Bytes
  deriving DecidableEq

structure Contents where
  heading : Heading
  members : List Heading
  deriving DecidableEq

namespace Xml

def valueOf (name : String) (attrs : List XmlAttr) : Bytes :=
  (attrs.lookup (utf8 name)).getD []

/-- The attributes and the content of the elements with the given tag. -/
def elementsOf (tag : String) (nodes : List Xml) :
    List (List XmlAttr × List Xml) :=
  nodes.filterMap fun
    | element other attrs children =>
      if other == utf8 tag then some (attrs, children) else none
    | _ => none

/-- The text in the first of the elements with the given tag, if that is all
there is in it. -/
def textOf (tag : String) (nodes : List Xml) : Bytes :=
  match elementsOf tag nodes with
  | (_, [text content]) :: _ => content
  | _ => []

/-- A heading, given the attribute that holds the id and the element that holds
the name. -/
def headingOf (id name : String) (attrs : List XmlAttr) (children : List Xml) :
    Heading :=
  ⟨valueOf "kind" attrs, valueOf id attrs, textOf name children⟩

/-- The heading of an element that defines a member or a value of an
enumeration.  Footnotes are not counted. -/
def ownHeading (tag : Bytes) (attrs : List XmlAttr) (children : List Xml) :
    List Heading :=
  if tag == utf8 "memberdef" then
    if valueOf "kind" attrs == utf8 "footnote" then []
    else [headingOf "id" "name" attrs children]
  else if tag == utf8 "enumvalue" then
    [{ headingOf "id" "name" attrs children with kind := utf8 "enumvalue" }]
  else []

mutual

/-- The headings of the members and values in a tree, in the order of the
document. -/
def headings : Xml → List Heading
  | text _ => []
  | element tag attrs children =>
    ownHeading tag attrs children ++ headingsIn children
  | leaf _ _ => []

def headingsIn : List Xml → List Heading
  | [] => []
  | node :: nodes => headings node ++ headingsIn nodes

end

def contents (nodes : List Xml) : List Contents :=
  (elementsOf "compounddef" nodes).map fun (attrs, children) =>
    ⟨headingOf "id" "compoundname" attrs children, headingsIn children⟩

def listedIn (nodes : List Xml) : List Heading :=
  (elementsOf "member" nodes).map fun (attrs, children) =>
    headingOf "refid" "name" attrs children

def listings (nodes : List Xml) : List Contents :=
  (elementsOf "compound" nodes).map fun (attrs, children) =>
    ⟨headingOf "refid" "name" attrs children, listedIn children⟩

/-! ## Reading trees -/

@[simp] theorem elementsOf_append (tag : String) (xs ys : List Xml) :
    elementsOf tag (xs ++ ys) = elementsOf tag xs ++ elementsOf tag ys := by
  simp [elementsOf]

theorem listedIn_append (xs ys : List Xml) :
    listedIn (xs ++ ys) = listedIn xs ++ listedIn ys := by
  simp [listedIn]

theorem listedIn_flatMap (f : α → List Xml) (as : List α) :
    listedIn (as.flatMap f) = as.flatMap fun a => listedIn (f a) := by
  induction as with
  | nil => rfl
  | cons a as ih => rw [List.flatMap_cons, List.flatMap_cons, listedIn_append, ih]

theorem listings_append (xs ys : List Xml) :
    listings (xs ++ ys) = listings xs ++ listings ys := by
  simp [listings]

@[simp] theorem headingsIn_cons (node : Xml) (nodes : List Xml) :
    headingsIn (node :: nodes) = headings node ++ headingsIn nodes := by
  rw [headingsIn]

@[simp] theorem headingsIn_append (xs ys : List Xml) :
    headingsIn (xs ++ ys) = headingsIn xs ++ headingsIn ys := by
  induction xs with
  | nil => rfl
  | cons x xs ih => simp [ih]

@[simp] theorem headingsIn_flatMap (f : α → List Xml) (as : List α) :
    headingsIn (as.flatMap f) = as.flatMap fun a => headingsIn (f a) := by
  induction as with
  | nil => rfl
  | cons a as ih => simp [ih]

theorem headingsIn_block (tag : String) (attrs : List XmlAttr)
    (children : List Xml) :
    headingsIn (block tag attrs children) =
      ownHeading (utf8 tag) attrs (lineBreak :: children) ++
      headingsIn children := by
  simp [block, headings, lineBreak, headingsIn]

theorem ownHeading_eq_nil {tag : Bytes} {attrs : List XmlAttr}
    (h : ownDefinition tag attrs = []) (children : List Xml) :
    ownHeading tag attrs children = [] := by
  have hnone : Form.ofTag? tag = none := by simpa [ownDefinition] using h
  have htag (form : Form) : tag ≠ form.tag := by
    have hform := List.find?_eq_none.1 hnone form (by cases form <;> decide)
    intro htag
    exact hform (by simp [htag])
  have hmember : tag ≠ utf8 "memberdef" := htag .member
  have hvalue : tag ≠ utf8 "enumvalue" := htag .value
  simp [ownHeading, hmember, hvalue]

mutual

theorem headings_eq_nil (node : Xml) (h : definitions node = []) :
    headings node = [] := by
  cases node with
  | text content => rw [headings]
  | leaf tag attrs => rw [headings]
  | element tag attrs children =>
      rw [definitions_element, List.append_eq_nil_iff] at h
      rw [headings, ownHeading_eq_nil h.1, headingsIn_eq_nil children h.2,
        List.append_nil]

theorem headingsIn_eq_nil (nodes : List Xml) (h : definitionsIn nodes = []) :
    headingsIn nodes = [] := by
  cases nodes with
  | nil => rw [headingsIn]
  | cons node nodes =>
      rw [definitionsIn_cons, List.append_eq_nil_iff] at h
      rw [headingsIn, headings_eq_nil node h.1, headingsIn_eq_nil nodes h.2,
        List.append_nil]

end

end Xml

namespace Page

open LuaGloss.Xml

theorem headingsIn_definition {kind : String} (h : utf8 kind ≠ utf8 "footnote")
    (refId : Bytes) (item : Item) (name : Bytes) (content : List Xml) :
    headingsIn (definition kind refId item name content) =
      ⟨utf8 kind, refId, name⟩ :: headingsIn content := by
  have hname : headingsIn (line "name" [] name) = [] :=
    headingsIn_eq_nil _ (definitionsIn_plainLine (by decide) _ _)
  have hlocation : headingsIn (location item) = [] :=
    headingsIn_eq_nil _ (definitionsIn_leafLine _ _)
  have hown (rest : List XmlAttr) :
      ownHeading (utf8 "memberdef")
        (attr "kind" (utf8 kind) :: attr "id" refId :: rest)
        (lineBreak :: (line "name" [] name ++ content ++ location item)) =
          [⟨utf8 kind, refId, name⟩] := by
    have hkind :
        (valueOf "kind" (attr "kind" (utf8 kind) :: attr "id" refId :: rest) ==
          utf8 "footnote") = false := by
      simpa [valueOf, attr] using h
    simp only [ownHeading, hkind]
    rfl
  unfold definition
  rw [headingsIn_block, hown]
  simp [hname, hlocation]

theorem listedIn_indexEntry (kind : String) (refId name : Bytes) :
    listedIn (indexEntry kind refId name) = [⟨utf8 kind, refId, name⟩] := rfl

theorem headingsIn_memberSection (members : List Xml) :
    headingsIn (Parts.memberSection members) = headingsIn members := by
  unfold Parts.memberSection
  split
  next hempty => rw [List.isEmpty_iff.1 hempty]
  next => exact headingsIn_block _ _ _

/-- The index lists the members of parts, and no others. -/
structure Parts.Listed (parts : Parts) : Prop where
  inner : headingsIn parts.inner = []
  members : listedIn parts.index = headingsIn parts.members

namespace Parts.Listed

theorem empty : Parts.Listed .empty := ⟨rfl, rfl⟩

theorem append {p q : Parts} (hp : p.Listed) (hq : q.Listed) :
    (p ++ q).Listed where
  inner := (headingsIn_append _ _).trans (by rw [hp.inner, hq.inner]; rfl)
  members := by
    change listedIn (p.index ++ q.index) = headingsIn (p.members ++ q.members)
    rw [listedIn_append, headingsIn_append, hp.members, hq.members]

end Parts.Listed

end Page

/-- An entry of the index says what a page defines.  It leaves out what is
defined on the page of a group. -/
structure Contents.Lists (listing : Contents) (page : Page) : Prop where
  refId : listing.heading.id = page.refId
  contents : ∃ members, Xml.contents page.content = [⟨listing.heading, members⟩] ∧
    listing.members = if listing.heading.kind = utf8 "group" then [] else members

/-- The index lists the pages one after the other, which all are of some of the
given kinds. -/
structure Sheets.Listed (kinds : List Bytes) (sheets : Sheets) : Prop where
  pages : List.Forall₂ Contents.Lists (Xml.listings sheets.index) sheets.pages
  kinds : ∀ listing ∈ Xml.listings sheets.index, listing.heading.kind ∈ kinds

namespace Sheets.Listed

variable {kinds : List Bytes}

theorem empty : Sheets.Listed kinds .empty := ⟨.nil, nofun⟩

theorem append {s t : Sheets} (hs : s.Listed kinds) (ht : t.Listed kinds) :
    (s ++ t).Listed kinds where
  pages := by
    rw [index_append, pages_append, Xml.listings_append]
    exact List.rel_append hs.pages ht.pages
  kinds := by
    intro listing hlisting
    rw [index_append, Xml.listings_append, List.mem_append] at hlisting
    rcases hlisting with hfirst | hsecond
    · exact hs.kinds listing hfirst
    · exact ht.kinds listing hsecond

end Sheets.Listed

namespace View

open LuaGloss.Xml LuaGloss.Page LuaGloss.Press

variable (c : Catalog)

/-! ## What has no headings -/

theorem headingsIn_footnotes (id : BlockId) :
    headingsIn (footnotes c id) = [] := by
  have hfootnote (note : BlockId) : headingsIn (footnote c note) = [] := by
    have hcontent :
        definitionsIn (line "name" [] (c.givenId note) ++ description c note) =
          [] := by
      simp (disch := decide) [definitionsIn_plainLine, definitionsIn_description]
    unfold footnote
    rw [headingsIn_block, headingsIn_eq_nil _ hcontent]
    rfl
  unfold footnotes
  split
  · rfl
  · simp [hfootnote]

/-! ## Members -/

theorem listed_functionParts (item : Item) (signature : Signature)
    (name : Bytes) (id : BlockId) :
    (functionParts c item signature name id).Listed := by
  have hcontent :
      definitionsIn (line "argsstring" [] signature.argsText ++
        parameters signature ++ description c id) =
      [] := by
    simp (disch := decide) [definitionsIn_plainLine, definitionsIn_parameters,
      definitionsIn_description]
  refine ⟨rfl, ?_⟩
  simp only [functionParts, listedIn_indexEntry, headingsIn_append,
    headingsIn_footnotes]
  rw [headingsIn_definition (by decide), headingsIn_eq_nil _ hcontent]
  rfl

theorem listed_variableParts (item : Item) (init : Value) (name : Bytes)
    (id : BlockId) : (variableParts c item init name id).Listed := by
  have hcontent : definitionsIn (initializer init ++ description c id) = [] := by
    simp [definitionsIn_initializer, definitionsIn_description]
  refine ⟨rfl, ?_⟩
  simp only [variableParts, listedIn_indexEntry, headingsIn_append,
    headingsIn_footnotes]
  rw [headingsIn_definition (by decide), headingsIn_eq_nil _ hcontent]
  rfl

theorem listedIn_enumValue (id : ItemId) :
    listedIn (enumValue c id).2 = headingsIn (enumValue c id).1 := by
  unfold enumValue
  split
  · rfl
  next item _ =>
    have hinit : definitionsIn ((item.init?.map initializer).getD []) = [] := by
      cases item.init? with
      | none => rfl
      | some init => exact definitionsIn_initializer init
    have hcontent :
        definitionsIn
          (line "name" [] item.name ++ (item.init?.map initializer).getD [] ++
        description c (c.blockNumber id)) = [] := by
      simp (disch := decide) [definitionsIn_plainLine, hinit,
        definitionsIn_description]
    rw [headingsIn_block, headingsIn_eq_nil _ hcontent]
    rfl

theorem listed_enumParts (item : Item) (fields : List ItemId) (name : Bytes)
    (id : BlockId) : (enumParts c item fields name id).Listed := by
  have htext := headingsIn_eq_nil _ (definitionsIn_description c id)
  refine ⟨rfl, ?_⟩
  simp only [enumParts, listedIn_append, listedIn_indexEntry, headingsIn_append,
    headingsIn_footnotes]
  rw [headingsIn_definition (by decide), headingsIn_append, htext]
  simp [listedIn_flatMap, List.flatMap_map, listedIn_enumValue]

/-! ## Pages -/

theorem lists_compound {kind : String} {refId name : Bytes}
    {listed : List Heading} {content : List Xml}
    (h : listed = if utf8 kind = utf8 "group" then [] else headingsIn content) :
    Contents.Lists ⟨⟨utf8 kind, refId, name⟩, listed⟩ ⟨refId,
      compound c kind refId name content⟩ := by
  refine ⟨rfl, headingsIn content, ?_, h⟩
  have hname : headingsIn (line "compoundname" [] name) = [] :=
    headingsIn_eq_nil _ (definitionsIn_plainLine (by decide) _ _)
  have hcontent :
      headingsIn (lineBreak :: (line "compoundname" [] name ++ content)) =
        headingsIn content := by
    rw [headingsIn_cons, headingsIn_append, hname]
    rfl
  change [(⟨⟨utf8 kind, refId, name⟩,
    headingsIn (lineBreak :: (line "compoundname" [] name ++ content))⟩ :
      Contents)] = _
  rw [hcontent]

def compoundKinds : List Bytes := [utf8 "struct", utf8 "class", utf8 "namespace"]

theorem listed_compoundSheets (id : ItemId) (item : Item) (kind : VariableKind)
    (own : BlockId) {parts : Parts} (h : parts.Listed) :
    (compoundSheets c id item kind own parts).Listed compoundKinds := by
  have hkind : utf8 (compoundKind kind) ∈ compoundKinds ∧
      utf8 (compoundKind kind) ≠ utf8 "group" := by
    cases kind <;> decide
  have hbefore := headingsIn_eq_nil _ (definitionsIn_baseReferences c id)
  have himports := headingsIn_eq_nil _ (definitionsIn_imports c own)
  have htext := headingsIn_eq_nil _ (definitionsIn_description c own)
  have hlocation : headingsIn (location item) = [] :=
    headingsIn_eq_nil _ (definitionsIn_leafLine _ _)
  have hpage :
      Contents.Lists
        ⟨⟨utf8 (compoundKind kind), c.givenId own,
          c.declarations.qualifiedName id⟩,
      listedIn (lineBreak :: parts.index)⟩
        (compoundPage c id item kind own parts) := by
    apply lists_compound
    rw [if_neg hkind.2]
    refine h.members.trans ?_
    simp [hbefore, h.inner, headingsIn_memberSection, headingsIn_footnotes,
      himports, htext, hlocation]
  refine ⟨.cons hpage .nil, ?_⟩
  intro listing hlisting
  rw [List.mem_singleton.1 hlisting]
  exact hkind.1

omit c in
/-- The members of a compound go into its own entry and page, and none are left
for the page around it. -/
theorem Layout.listed {c : Catalog} {parts : Parts} {sheets : Sheets}
    {shown : List (Form × Entity)} (h : Layout c parts sheets shown) :
    parts.Listed ∧ sheets.Listed compoundKinds := by
  induction h with
  | nothing => exact ⟨.empty, .empty⟩
  | append _ _ ih ih' => exact ⟨ih.1.append ih'.1, ih.2.append ih'.2⟩
  | function id item signature name =>
      exact ⟨listed_functionParts c item signature name _, .empty⟩
  | plain id item init name =>
      exact ⟨listed_variableParts c item init name _, .empty⟩
  | enumeration id item fields name =>
      exact ⟨listed_enumParts c item fields name _, .empty⟩
  | compound item _ _ _ ih =>
      obtain ⟨hparts, hsheets⟩ := ih
      exact ⟨⟨headingsIn_eq_nil _ (definitionsIn_leafLine _ _), rfl⟩,
        hsheets.append (listed_compoundSheets c _ item _ _ hparts)⟩

theorem lists_globalSheets {parts : Parts} (h : parts.Listed) :
    List.Forall₂ Contents.Lists (listings (globalSheets c parts).index)
      (globalSheets c parts).pages := by
  refine .cons (lists_compound c ?_) .nil
  rw [if_neg (by decide), headingsIn_append, h.inner, headingsIn_memberSection]
  exact h.members

theorem listed_groupsSheets (ids : List GroupId) :
    (groupsSheets c ids).Listed [utf8 "group"] := by
  induction ids with
  | nil => exact .empty
  | cons id ids ih =>
      refine .append ?_ ih
      unfold groupSheets
      split
      · exact .empty
      next group _ =>
        refine ⟨.cons (lists_compound c rfl) .nil, ?_⟩
        intro listing hlisting
        rw [List.mem_singleton.1 hlisting]
        exact List.mem_singleton_self _

end View

/-- The index lists the pages in their order: those of items, the one of the
global members, and those of groups. -/
structure Sheets.Agree (sheets : Sheets) : Prop where
  pages : List.Forall₂ Contents.Lists (Xml.listings sheets.index) sheets.pages
  order : ∃ items globals groups, Xml.listings sheets.index = items ++
    globals :: groups ∧
    (∀ listing ∈ items, listing.heading.kind ∈ View.compoundKinds) ∧
    globals.heading = ⟨utf8 "file", Docs.globalId, Docs.globalId⟩ ∧
    ∀ listing ∈ groups, listing.heading.kind = utf8 "group"

theorem View.agree_sheets (c : Catalog) : (View.sheets c).Agree := by
  obtain ⟨_, hlayout, -⟩ :=
    exists_layout_showItems c true (c.declarations.forest c.isRendered)
  obtain ⟨hparts, hitems⟩ := hlayout.listed
  have hglobals := lists_globalSheets c hparts
  have hgroups := listed_groupsSheets c c.docs.listedGroups
  constructor
  · simp only [sheets, itemSheets, Sheets.index_append, Sheets.pages_append,
      Xml.listings_append]
    exact List.rel_append (List.rel_append hitems.pages hglobals) hgroups.pages
  · have horder : Xml.listings (sheets c).index =
        Xml.listings
          (showItems c true (c.declarations.forest c.isRendered)).2.index ++
          ⟨⟨utf8 "file", Docs.globalId, Docs.globalId⟩,
              Xml.listedIn
                (showItems c true (c.declarations.forest c.isRendered)).1.index⟩ ::
            Xml.listings (groupsSheets c c.docs.listedGroups).index := by
      simp only [sheets, itemSheets, Sheets.index_append, Xml.listings_append,
        List.append_assoc]
      rfl
    refine ⟨_, _, _, horder, hitems.kinds, rfl, ?_⟩
    intro listing hlisting
    exact List.mem_singleton.1 (hgroups.kinds listing hlisting)

end LuaGloss

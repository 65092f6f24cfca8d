import LuaGloss.Page.Press
import LuaGloss.Proofs.Page.Rendering

/-!
# What pages define

A page defines things: a compound, members and values of enumerations, each with
an id.  References to things that are defined elsewhere are elements without
content and define nothing.  On the other side there are the things that the
catalog has to show: items, footnotes, groups and the page of global members.
-/

namespace LuaGloss

/-- The form of a definition. -/
inductive Form where
  | member
  | value
  | compound
  deriving DecidableEq

def Form.tag : Form → Bytes
  | member => utf8 "memberdef"
  | value => utf8 "enumvalue"
  | compound => utf8 "compounddef"

/-- The form of the definition that an element with the given tag is. -/
def Form.ofTag? (tag : Bytes) : Option Form :=
  [member, value, compound].find? (·.tag == tag)

structure Definition where
  form : Form
  id : Bytes
  deriving DecidableEq

namespace Xml

/-- The definition that an element with the given tag and attributes is, if it
is one. -/
def ownDefinition (tag : Bytes) (attrs : List XmlAttr) : List Definition :=
  ((Form.ofTag? tag).map fun form =>
    ⟨form, (attrs.lookup (utf8 "id")).getD []⟩).toList

mutual

/-- The definitions in a tree, outermost first. -/
def definitions : Xml → List Definition
  | text _ => []
  | element tag attrs children => ownDefinition tag attrs ++ definitionsIn children
  | leaf _ _ => []

def definitionsIn : List Xml → List Definition
  | [] => []
  | node :: nodes => definitions node ++ definitionsIn nodes

end

@[simp] theorem definitionsIn_nil : definitionsIn [] = [] := rfl

@[simp] theorem definitionsIn_cons (node : Xml) (nodes : List Xml) :
    definitionsIn (node :: nodes) = definitions node ++ definitionsIn nodes := by
  rw [definitionsIn]

@[simp] theorem definitions_text (content : Bytes) :
    definitions (text content) = [] := by
  rw [definitions]

@[simp] theorem definitions_lineBreak : definitions lineBreak = [] :=
  definitions_text _

theorem definitions_element (tag : Bytes) (attrs : List XmlAttr)
    (children : List Xml) :
    definitions (element tag attrs children) = ownDefinition tag attrs ++
      definitionsIn children := by
  rw [definitions]

@[simp] theorem definitionsIn_append (xs ys : List Xml) :
    definitionsIn (xs ++ ys) = definitionsIn xs ++ definitionsIn ys := by
  induction xs with
  | nil => rfl
  | cons x xs ih => simp [ih]

@[simp] theorem definitionsIn_flatMap (f : α → List Xml) (as : List α) :
    definitionsIn (as.flatMap f) = as.flatMap fun a => definitionsIn (f a) := by
  induction as with
  | nil => rfl
  | cons a as ih => simp [ih]

theorem definitionsIn_block (tag : String) (attrs : List XmlAttr)
    (children : List Xml) :
    definitionsIn (block tag attrs children) = ownDefinition (utf8 tag) attrs ++
      definitionsIn children := by
  simp [block, definitions_element]

theorem definitionsIn_line (tag : String) (attrs : List XmlAttr)
    (content : Bytes) :
    definitionsIn (line tag attrs content) = ownDefinition (utf8 tag) attrs := by
  simp [line, definitions_element]

@[simp] theorem definitionsIn_leafLine (tag : Bytes) (attrs : List XmlAttr) :
    definitionsIn (leafLine tag attrs) = [] := by
  simp [leafLine, definitions]

theorem ownDefinition_of_none {tag : Bytes} (h : Form.ofTag? tag = none)
    (attrs : List XmlAttr) : ownDefinition tag attrs = [] := by
  simp [ownDefinition, h]

end Xml

def Page.definitions (page : Page) : List Definition :=
  Xml.definitionsIn page.content

/-! ## What there is to show -/

/-- Something with a reference id. -/
inductive Entity where
  | item (id : ItemId)
  | footnote (block : BlockId)
  | group (id : GroupId)
  /-- The page of the members without a compound of their own. -/
  | global
  deriving DecidableEq

namespace Catalog

def ownBlock? (c : Catalog) : Entity → Option BlockId
  | .item id => c.docs.blockOf? id
  | .footnote block => some block
  | .group id => (c.docs.group? id).map (·.block)
  | .global => none

def refIdOf? (c : Catalog) : Entity → Option Bytes
  | .global => some Docs.globalId
  | entity => ((c.ownBlock? entity).bind c.docs.block?).bind (·.refId)

theorem refIdOf?_eq (c : Catalog) {entity : Entity} (h : entity ≠ .global) :
    c.refIdOf? entity =
      ((c.ownBlock? entity).bind c.docs.block?).bind (·.refId) := by
  cases entity with
  | global => exact (h rfl).elim
  | item id => rfl
  | footnote block => rfl
  | group id => rfl

def definition? (c : Catalog) (shown : Form × Entity) : Option Definition :=
  (c.refIdOf? shown.2).map (⟨shown.1, ·⟩)

def notes (c : Catalog) (block : Option BlockId) : List (Form × Entity) :=
  (((block.bind c.docs.block?).map (·.footnotes)).getD []).map fun note =>
    (.member, .footnote note)

mutual

/-- What is shown of an item and the items below it.  Values of an enumeration
are shown in it, and what is below them is not shown at all. -/
def shownIn (c : Catalog) : ItemTree → List (Form × Entity)
  | .node id fields =>
    match c.kindOf id with
    | .enum =>
      (.member, .item id) ::
        (fields.map fun field => (.value, .item field.item)) ++
        c.notes (c.docs.blockOf? id)
    | .normal =>
      (.member, .item id) :: c.notes (c.docs.blockOf? id) ++ shownInAll c fields
    | .class_ | .struct | .module_ =>
      (.compound, .item id) :: c.notes (c.docs.blockOf? id) ++ shownInAll c fields

def shownInAll (c : Catalog) : List ItemTree → List (Form × Entity)
  | [] => []
  | tree :: trees => shownIn c tree ++ shownInAll c trees

end

theorem shownIn_compound {c : Catalog} {id : ItemId}
    (hnotEnum : c.kindOf id ≠ .enum) (hnotNormal : c.kindOf id ≠ .normal)
    (fields : List ItemTree) :
    c.shownIn (.node id fields) =
      (.compound, .item id) ::
        (c.notes (c.docs.blockOf? id) ++ c.shownInAll fields) := by
  rw [shownIn]
  cases hkind : c.kindOf id with
  | enum => exact (hnotEnum hkind).elim
  | normal => exact (hnotNormal hkind).elim
  | class_ => rfl
  | struct => rfl
  | module_ => rfl

def shownOfGroup (c : Catalog) (id : GroupId) : List (Form × Entity) :=
  (.compound, .group id) :: c.notes ((c.docs.group? id).map (·.block))

/-- Everything that the documentation shows. -/
def shown (c : Catalog) : List (Form × Entity) :=
  (.compound, .global) :: c.shownInAll (c.declarations.forest c.isRendered)
    ++ c.docs.listedGroups.flatMap c.shownOfGroup

/-! ## What stays as it is while pages are written -/

theorem block?_of_blockOf? {c : Catalog} (hc : c.Consistent) {item : ItemId}
    {block : BlockId} (h : c.docs.blockOf? item = some block) :
    ∃ b, c.docs.block? block = some b ∧ b.item = some item := by
  obtain ⟨links, hlinks, hitem⟩ := hc.docs.attached.item item block h
  obtain ⟨b, hb, rfl⟩ := Option.map_eq_some_iff.1 hlinks
  exact ⟨b, hb, hitem⟩

theorem block?_of_group? {c : Catalog} (hc : c.Consistent) {id : GroupId}
    {group : Group} (h : c.docs.group? id = some group) :
    ∃ b, c.docs.block? group.block = some b ∧ b.kind = .group id := by
  obtain ⟨links, hlinks, hkind⟩ :=
    hc.docs.grouped.block id _ (Docs.groupLinks?_of_group? h)
  obtain ⟨b, hb, rfl⟩ := Option.map_eq_some_iff.1 hlinks
  exact ⟨b, hb, hkind⟩

theorem block?_of_footnote {c : Catalog} (hc : c.Consistent)
    {parent note : BlockId} {b : Block} (h : c.docs.block? parent = some b)
    (hnote : note ∈ b.footnotes) :
    ∃ b', c.docs.block? note = some b' ∧ b'.kind = .footnote parent := by
  obtain ⟨links, hlinks, hkind⟩ :=
    hc.docs.noted parent _ (Docs.links?_of_block? h) note hnote
  obtain ⟨b', hb', rfl⟩ := Option.map_eq_some_iff.1 hlinks
  exact ⟨b', hb', hkind⟩

namespace Refines

variable {c c' : Catalog} (h : c.Refines c')

include h

theorem group? (id : GroupId) : c'.docs.group? id = c.docs.group? id := by
  unfold Docs.group?
  rw [h.groups]

theorem ownBlock? {entity : Entity} {block : BlockId}
    (hown : c.ownBlock? entity = some block) :
    c'.ownBlock? entity = some block := by
  cases entity with
  | item id => exact h.attached id block hown
  | footnote note => exact hown
  | group id =>
      change (c'.docs.group? id).map _ = some block
      rw [h.group?]
      exact hown
  | global => exact hown

theorem refIdOf? {entity : Entity} {refId : Bytes}
    (hrefId : c.refIdOf? entity = some refId) :
    c'.refIdOf? entity = some refId := by
  by_cases hglobal : entity = .global
  · rw [hglobal] at hrefId ⊢
    exact hrefId
  · rw [refIdOf?_eq c hglobal] at hrefId
    rw [refIdOf?_eq c' hglobal]
    obtain ⟨b, hb, hid⟩ := Option.bind_eq_some_iff.1 hrefId
    obtain ⟨block, hown, hb⟩ := Option.bind_eq_some_iff.1 hb
    obtain ⟨refId', hb', hkept⟩ := h.block block b hb
    simp [h.ownBlock? hown, hb', hkept refId hid]

theorem definition? {shown : Form × Entity} {definition : Definition}
    (hshown : c.definition? shown = some definition) :
    c'.definition? shown = some definition := by
  obtain ⟨refId, hrefId, rfl⟩ := Option.map_eq_some_iff.1 hshown
  simp [Catalog.definition?, h.refIdOf? hrefId]

theorem notes_of_block? {block : BlockId} {b : Block}
    (hb : c.docs.block? block = some b) :
    c'.notes (some block) = c.notes (some block) := by
  obtain ⟨refId, hb', -⟩ := h.block block b hb
  simp [Catalog.notes, hb, hb']

theorem notes_blockOf? (hc : c.Consistent) (item : ItemId) :
    c'.notes (c'.docs.blockOf? item) = c.notes (c.docs.blockOf? item) := by
  cases hitem : c.docs.blockOf? item with
  | some block =>
      obtain ⟨b, hb, -⟩ := block?_of_blockOf? hc hitem
      rw [h.attached item block hitem]
      exact h.notes_of_block? hb
  | none =>
      cases hitem' : c'.docs.blockOf? item with
      | none => rfl
      | some block =>
          obtain ⟨b, hb, -, -, -, hnotes⟩ := h.blank item block hitem hitem'
          simp [Catalog.notes, hb, hnotes]

theorem shownOfGroup (hc : c.Consistent) (id : GroupId) :
    c'.shownOfGroup id = c.shownOfGroup id := by
  unfold Catalog.shownOfGroup
  rw [h.group?]
  cases hgroup : c.docs.group? id with
  | none => rfl
  | some group =>
      obtain ⟨b, hb, -⟩ := block?_of_group? hc hgroup
      exact congrArg _ (h.notes_of_block? hb)

omit h in
mutual

theorem shownIn (h : c.Refines c') (hc : c.Consistent) (tree : ItemTree) :
    c'.shownIn tree = c.shownIn tree := by
  cases tree with
  | node id fields =>
      rw [Catalog.shownIn, Catalog.shownIn, h.kindOf hc, h.notes_blockOf? hc,
        shownInAll h hc fields]

theorem shownInAll (h : c.Refines c') (hc : c.Consistent) (trees : List ItemTree) :
    c'.shownInAll trees = c.shownInAll trees := by
  cases trees with
  | nil => rw [Catalog.shownInAll, Catalog.shownInAll]
  | cons tree trees =>
      rw [Catalog.shownInAll, Catalog.shownInAll, shownIn h hc tree,
        shownInAll h hc trees]

end

theorem shown (hc : c.Consistent) : c'.shown = c.shown := by
  have hkeep : c'.isRendered = c.isRendered := funext (h.isRendered hc)
  have hgroups : c'.shownOfGroup = c.shownOfGroup := funext (h.shownOfGroup hc)
  unfold Catalog.shown
  rw [h.shownInAll hc, h.declarations, hkeep, hgroups, h.listedGroups]

end Refines

/-- The given definitions are those of the given entities, in some order. -/
def Defines (c : Catalog) (definitions : List Definition)
    (entities : List (Form × Entity)) : Prop :=
  (definitions.map some).Perm (entities.map c.definition?)

namespace Defines

theorem nil (c : Catalog) : c.Defines [] [] := List.Perm.nil

theorem single {c : Catalog} {form : Form} {entity : Entity} {refId : Bytes}
    (h : c.refIdOf? entity = some refId) :
    c.Defines [⟨form, refId⟩] [(form, entity)] := by
  simp [Defines, definition?, h]

theorem append {c : Catalog} {ds ds' : List Definition}
    {es es' : List (Form × Entity)} (h : c.Defines ds es)
    (h' : c.Defines ds' es') : c.Defines (ds ++ ds') (es ++ es') := by
  unfold Defines
  rw [List.map_append, List.map_append]
  exact List.Perm.append h h'

theorem perm {c : Catalog} {ds ds' : List Definition}
    {es es' : List (Form × Entity)} (h : c.Defines ds es) (hds : ds'.Perm ds)
    (hes : es.Perm es') : c.Defines ds' es' :=
  ((hds.map some).trans h).trans (hes.map c.definition?)

theorem mono {c c' : Catalog} {ds : List Definition} {es : List (Form × Entity)}
    (h : c.Defines ds es) (hrefines : c.Refines c') : c'.Defines ds es := by
  have heq : es.map c'.definition? = es.map c.definition? := by
    apply List.map_congr_left
    intro e he
    have hmem : c.definition? e ∈ ds.map some :=
      h.symm.subset (List.mem_map_of_mem he)
    obtain ⟨d, -, hd⟩ := List.mem_map.1 hmem
    rw [← hd]
    exact hrefines.definition? hd.symm
  unfold Defines
  rw [heq]
  exact h

end Defines

def Names (c : Catalog) (shown : List (Form × Entity)) : Prop :=
  ∀ e ∈ shown, (c.refIdOf? e.2).isSome

theorem Names.mono {c c' : Catalog} {shown : List (Form × Entity)}
    (h : c.Names shown) (hrefines : c.Refines c') : c'.Names shown := by
  intro e he
  obtain ⟨refId, hrefId⟩ := Option.isSome_iff_exists.1 (h e he)
  rw [hrefines.refIdOf? hrefId]
  rfl

theorem names_append {c : Catalog} {shown shown' : List (Form × Entity)} :
    c.Names (shown ++ shown') ↔ c.Names shown ∧ c.Names shown' :=
  List.forall_mem_append

theorem names_cons {c : Catalog} {e : Form × Entity}
    {shown : List (Form × Entity)} :
    c.Names (e :: shown) ↔ (c.refIdOf? e.2).isSome ∧ c.Names shown :=
  List.forall_mem_cons

end Catalog

end LuaGloss

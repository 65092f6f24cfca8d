import LuaGloss.Page.Press
import LuaGloss.Proofs.Docs.RefId

/-!
# The grammar of documents

What a well-formed document is, said without the trees from which documents are
written: one element after the declaration, start and end tags that match and
nest, values between apostrophes, and an ampersand only where one of the
predefined entities begins.  A tree in which names and values are what they
should be is written as such a document.
-/

namespace LuaGloss

namespace Xml

def entityNames : List Bytes :=
  [utf8 "amp", utf8 "lt", utf8 "gt", utf8 "apos", utf8 "quot"]

def isContentByte (b : UInt8) : Bool := b != Byte.less && b != Byte.ampersand

def isValueByte (b : UInt8) : Bool := isContentByte b && b != Byte.apostrophe

/-- A text of entities and of bytes that stand for themselves. -/
inductive IsText (isRaw : UInt8 → Bool) : Bytes → Prop
  | nil : IsText isRaw []
  | byte {b : UInt8} {s : Bytes} :
      isRaw b = true → IsText isRaw s → IsText isRaw (b :: s)
  | entity {name s : Bytes} :
      name ∈ entityNames → IsText isRaw s →
      IsText isRaw (utf8 "&" ++ name ++ utf8 ";" ++ s)

def IsValue (s : Bytes) : Prop := IsText isValueByte s

def isName (s : Bytes) : Bool :=
  s.head?.any Byte.isNameStart && s.all Byte.isNameByte

/-- The attributes of a tag.  No two have the same name. -/
inductive IsAttributes : List Bytes → Bytes → Prop
  | nil : IsAttributes [] []
  | cons {name value s : Bytes} {names : List Bytes} :
      isName name = true → name ∉ names → IsValue value →
      IsAttributes names s → IsAttributes (name :: names)
        (utf8 " " ++ name ++ utf8 "='" ++ value ++ utf8 "'" ++ s)

mutual

inductive IsElement : Bytes → Prop
  | paired {tag attributes content : Bytes} {names : List Bytes} :
      isName tag = true → IsAttributes names attributes →
      IsContent content →
      IsElement (utf8 "<" ++ tag ++ attributes ++ utf8 ">" ++ content ++
        utf8 "</" ++ tag ++ utf8 ">")
  | single {tag attributes : Bytes} {names : List Bytes} :
      isName tag = true → IsAttributes names attributes →
      IsElement (utf8 "<" ++ tag ++ attributes ++ utf8 "/>")

/-- What stands between a start tag and its end tag. -/
inductive IsContent : Bytes → Prop
  | text {s : Bytes} : IsText isContentByte s → IsContent s
  | element {s element t : Bytes} :
      IsText isContentByte s → IsElement element → IsContent t →
      IsContent (s ++ element ++ t)

end

def declaration : Bytes :=
  utf8 "<?xml version='1.0' encoding='UTF-8' standalone='no'?>"

/-- The declaration and one element, with blanks around the element. -/
def IsDocument (s : Bytes) : Prop :=
  ∃ before element after, s = declaration ++ before ++ element ++ after ∧
    before.all Byte.isBlank = true ∧
    after.all Byte.isBlank = true ∧ IsElement element

/-! ## Texts -/

namespace IsText

theorem append {isRaw : UInt8 → Bool} {s t : Bytes} (h : IsText isRaw s)
    (h' : IsText isRaw t) : IsText isRaw (s ++ t) := by
  induction h with
  | nil => exact h'
  | byte hb _ ih => exact .byte hb ih
  | entity hname _ ih =>
      rw [List.append_assoc]
      exact .entity hname ih

theorem of_all {isRaw : UInt8 → Bool} {s : Bytes} (h : s.all isRaw = true) :
    IsText isRaw s := by
  induction s with
  | nil => exact .nil
  | cons b s ih =>
      simp only [List.all_cons, Bool.and_eq_true] at h
      exact .byte h.1 (ih h.2)

theorem mono {isRaw isRaw' : UInt8 → Bool} {s : Bytes} (h : IsText isRaw s)
    (hraw : ∀ b, isRaw b = true → isRaw' b = true) : IsText isRaw' s := by
  induction h with
  | nil => exact .nil
  | byte hb _ ih => exact .byte (hraw _ hb) ih
  | entity hname _ ih => exact .entity hname ih

end IsText

/-- Escaping leaves nothing that could end a value or begin a tag. -/
theorem isValue_escape (s : Bytes) : IsValue (escape s) := by
  have hentity (name : Bytes) (h : name ∈ entityNames) :
      IsValue (utf8 "&" ++ name ++ utf8 ";") := by
    rw [← List.append_nil (utf8 "&" ++ name ++ utf8 ";")]
    exact .entity h .nil
  have hbyte (b : UInt8) : IsValue (escapeByte b) := by
    unfold escapeByte
    split
    · exact hentity (utf8 "amp") (by decide)
    · exact hentity (utf8 "lt") (by decide)
    · exact hentity (utf8 "gt") (by decide)
    · exact hentity (utf8 "apos") (by decide)
    · exact hentity (utf8 "quot") (by decide)
    next hampersand hless _ hapostrophe _ =>
      have hraw : isValueByte b = true := by
        simp only [isValueByte, isContentByte, Bool.and_eq_true, bne_iff_ne]
        exact ⟨⟨hless, hampersand⟩, hapostrophe⟩
      exact .byte hraw .nil
  induction s with
  | nil => exact .nil
  | cons b s ih => exact (hbyte b).append ih

theorem isText_escape (s : Bytes) : IsText isContentByte (escape s) := by
  apply (isValue_escape s).mono
  intro b hb
  simp only [isValueByte, Bool.and_eq_true] at hb
  exact hb.1

theorem isValue_of_isId {s : Bytes} (h : isId s = true) : IsValue s := by
  have hbyte : ∀ b : Fin 256, isIdByte (UInt8.ofNat b) = true →
      isValueByte (UInt8.ofNat b) = true := by decide +kernel
  apply IsText.of_all
  unfold isId at h
  rw [List.all_eq_true] at h ⊢
  intro b hb
  simpa using hbyte ⟨b.toNat, b.toNat_lt⟩ (by simpa using h b hb)

/-! ## Trees -/

def areNames : List Bytes → Bool
  | [] => true
  | name :: names => isName name && !names.contains name && areNames names

structure ProperAttrs (attrs : List XmlAttr) : Prop where
  names : areNames (attrs.map Prod.fst) = true
  values : ∀ a ∈ attrs, IsValue a.2

mutual

def Proper : Xml → Prop
  | text _ => True
  | element tag attrs children =>
    isName tag = true ∧ ProperAttrs attrs ∧ ProperAll children
  | leaf tag attrs => isName tag = true ∧ ProperAttrs attrs

def ProperAll : List Xml → Prop
  | [] => True
  | node :: nodes => Proper node ∧ ProperAll nodes

end

theorem ProperAttrs.isAttributes {attrs : List XmlAttr} (h : ProperAttrs attrs) :
    IsAttributes (attrs.map Prod.fst) (attrs.flatMap attrText) := by
  obtain ⟨hnames, hvalues⟩ := h
  induction attrs with
  | nil => exact .nil
  | cons a attrs ih =>
      simp only [List.map_cons, areNames, Bool.and_eq_true, Bool.not_eq_true',
        List.contains_eq_mem, decide_eq_false_iff_not] at hnames
      obtain ⟨⟨hname, hother⟩, hnames⟩ := hnames
      obtain ⟨hvalue, hvalues⟩ := List.forall_mem_cons.1 hvalues
      exact .cons hname hother hvalue (ih hnames hvalues)

theorem IsContent.textBefore {s t : Bytes} (hs : IsText isContentByte s)
    (ht : IsContent t) : IsContent (s ++ t) := by
  cases ht with
  | text htext => exact .text (hs.append htext)
  | element htext helement hrest =>
      rw [← List.append_assoc, ← List.append_assoc]
      exact .element (hs.append htext) helement hrest

theorem IsContent.elementBefore {element t : Bytes}
    (helement : IsElement element) (ht : IsContent t) :
    IsContent (element ++ t) :=
  .element .nil helement ht

mutual

/-- An element is written as one. -/
theorem isElement_render (tag : Bytes) (attrs : List XmlAttr)
    (children : List Xml) (h : Proper (element tag attrs children)) :
    IsElement (render (element tag attrs children)) := by
  rw [Proper] at h
  obtain ⟨htag, hattrs, hchildren⟩ := h
  have hcontent := isContent_renderAll children hchildren
  have helement := IsElement.paired htag hattrs.isAttributes hcontent
  rw [render, openTag, closeTag]
  simpa only [List.append_assoc] using helement

theorem isContent_renderAll (nodes : List Xml) (h : ProperAll nodes) :
    IsContent (renderAll nodes) := by
  cases nodes with
  | nil =>
      rw [renderAll]
      exact .text .nil
  | cons node nodes =>
      rw [ProperAll] at h
      obtain ⟨hnode, hnodes⟩ := h
      have hrest := isContent_renderAll nodes hnodes
      rw [renderAll]
      cases node with
      | text content =>
          rw [render]
          exact hrest.textBefore (isText_escape content)
      | element tag attrs children =>
          exact hrest.elementBefore (isElement_render tag attrs children hnode)
      | leaf tag attrs =>
          rw [Proper] at hnode
          rw [render]
          exact hrest.elementBefore (.single hnode.1 hnode.2.isAttributes)

end

/-- A document whose lines are proper is well formed. -/
theorem isDocument_document {root : String} {content : List Xml}
    (hroot : isName (utf8 root) = true) (h : ProperAll content) :
    IsDocument (Page.document root content) := by
  have hproper : Proper (element (utf8 root) [] (lineBreak :: content)) := by
    rw [Proper, ProperAll]
    exact ⟨hroot, ⟨rfl, nofun⟩, trivial, h⟩
  refine ⟨[Byte.lineFeed],
    render (element (utf8 root) [] (lineBreak :: content)), [Byte.lineFeed],
    ?_, rfl, rfl,
    isElement_render _ _ _ hproper⟩
  have hlines : renderAll (block root [] content) =
      render (element (utf8 root) [] (lineBreak :: content)) ++
        [Byte.lineFeed] := by
    rw [block, renderAll, renderAll, renderAll]
    rfl
  rw [Page.document, hlines, ← List.append_assoc]
  rfl

/-! ## Lines -/

@[simp] theorem proper_text (content : Bytes) : Proper (text content) := by
  rw [Proper]; trivial

@[simp] theorem proper_lineBreak : Proper lineBreak := proper_text _

theorem proper_element {tag : Bytes} {attrs : List XmlAttr}
    {children : List Xml} :
    Proper (element tag attrs children) ↔ isName tag = true ∧
    ProperAttrs attrs ∧ ProperAll children := by
  rw [Proper]

@[simp] theorem properAll_nil : ProperAll [] := by rw [ProperAll]; trivial

@[simp] theorem properAll_cons {node : Xml} {nodes : List Xml} :
    ProperAll (node :: nodes) ↔ Proper node ∧ ProperAll nodes := by
  rw [ProperAll]

@[simp] theorem properAll_append {xs ys : List Xml} :
    ProperAll (xs ++ ys) ↔ ProperAll xs ∧ ProperAll ys := by
  induction xs with
  | nil => simp
  | cons x xs ih => simp [ih, and_assoc]

theorem properAll_flatMap {f : α → List Xml} {as : List α}
    (h : ∀ a ∈ as, ProperAll (f a)) : ProperAll (as.flatMap f) := by
  induction as with
  | nil => exact properAll_nil
  | cons a as ih =>
      obtain ⟨ha, has⟩ := List.forall_mem_cons.1 h
      exact properAll_append.2 ⟨ha, ih has⟩

@[simp] theorem properAttrs_nil : ProperAttrs [] := ⟨rfl, nofun⟩

theorem properAll_block {tag : String} {attrs : List XmlAttr}
    {children : List Xml} :
    ProperAll (block tag attrs children) ↔ isName (utf8 tag) = true ∧
    ProperAttrs attrs ∧ ProperAll children := by
  simp [block, proper_element]

theorem properAll_line {tag : String} {attrs : List XmlAttr} {content : Bytes} :
    ProperAll (line tag attrs content) ↔ isName (utf8 tag) = true ∧
    ProperAttrs attrs := by
  simp [line, proper_element]

theorem properAll_leafLine {tag : Bytes} {attrs : List XmlAttr} :
    ProperAll (leafLine tag attrs) ↔ isName tag = true ∧ ProperAttrs attrs := by
  simp [leafLine, Proper]

end Xml

end LuaGloss

import LuaGloss.Catalog.Grouping

/-!
# Descriptions

The part of a page that shows what the comments say: brief and detailed
description, references, imports and footnotes.

Reference ids are given out when a page first needs them, so the order in which
the parts of a page are put together matters.
-/

namespace LuaGloss

abbrev CatalogM := StateM Catalog

namespace Page

open LuaGloss.Xml

def isLineEnd (b : UInt8) : Bool := Byte.isIndent b || b == Byte.carriageReturn

/-- The runs of lines between empty lines, where some runs may be empty
themselves. -/
def lineRuns : List Bytes → List (List Bytes)
  | [] => [[]]
  | line :: lines =>
    if line.isEmpty then [] :: lineRuns lines
    else
      match lineRuns lines with
      | [] => [[line]]
      | run :: runs => (line :: run) :: runs

/-- The paragraphs of a text.  Blanks at the end of lines are dropped, and empty
lines separate paragraphs. -/
def paragraphs (text : Bytes) : List Bytes :=
  let lines := (Bytes.splitOn Byte.lineFeed text).map (Bytes.trimRight isLineEnd)
  ((lineRuns lines).filter (!·.isEmpty)).map (Bytes.join [Byte.lineFeed])

def paragraphElements (text : Bytes) : List Xml :=
  (paragraphs text).flatMap (line "para" [])

def refIdOf (block : BlockId) : CatalogM Bytes := modifyGet (·.refId block)

def itemBlockOf (item : ItemId) : CatalogM BlockId := modifyGet (·.itemBlock item)

def itemRefIdOf (item : ItemId) : CatalogM Bytes := modifyGet (·.itemRefId item)

/-- A name in the references of a block.  It is a link if the item that it means
is shown. -/
def seeAlsoElement (see : SeeAlso) : CatalogM Xml := do
  let c ← get
  match see.item.filter c.isRendered with
  | none => return .text see.name
  | some item =>
    let kind :=
      if (c.innerElement item).isEmpty then utf8 "member" else utf8 "compound"
    return .element (utf8 "ref") [attr "refid" (← itemRefIdOf item),
      attr "kindref" kind] [.text see.name]

def seeAlsoElements (seeAlso : List SeeAlso) : CatalogM (List Xml) := do
  if seeAlso.isEmpty then return []
  else
    let names := (← seeAlso.mapM seeAlsoElement).intersperse (.text (utf8 ", "))
    let section_ :=
      Xml.element (utf8 "simplesect") [attr "kind" (utf8 "see")]
        [.element (utf8 "para") [] names]
    return [.element (utf8 "para") [] [section_], lineBreak]

def description (id : BlockId) : CatalogM (List Xml) := do
  match (← get).docs.block? id with
  | none => return []
  | some b =>
    let references ← seeAlsoElements b.seeAlso
    return block "briefdescription" [] (paragraphElements b.brief)
      ++ block "detaileddescription" []
      (paragraphElements b.detailed ++ references)

def footnote (id : BlockId) : CatalogM (List Xml) := do
  let refId ← refIdOf id
  let text ← description id
  return block "memberdef" [attr "kind" (utf8 "footnote"), attr "id" refId]
    (line "name" [] refId ++ text)

def footnotes (id : BlockId) : CatalogM (List Xml) := do
  match (← get).docs.block? id with
  | none => return []
  | some b => return (← b.footnotes.mapM footnote).flatten

def imports (c : Catalog) (id : BlockId) : List Xml :=
  match c.docs.block? id with
  | none => []
  | some b => b.imports.flatMap (line "includes" [])

end Page

end LuaGloss

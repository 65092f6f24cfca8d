import LuaGloss.Page.Description

/-!
# Members

Functions, variables and enumerations are members of the page of their compound.
What an item adds to a page falls into three parts: references to inner
compounds, members, and entries of the index.
-/

namespace LuaGloss

namespace Page

open LuaGloss.Xml

/-- What goes into the page of a compound. -/
structure Parts where
  /-- References to inner compounds. -/
  inner : List Xml
  members : List Xml
  /-- The entries of the members in the index. -/
  index : List Xml

namespace Parts

def empty : Parts := ⟨[], [], []⟩

def append (p q : Parts) : Parts :=
  ⟨p.inner ++ q.inner, p.members ++ q.members, p.index ++ q.index⟩

instance : Append Parts := ⟨append⟩

def memberSection (members : List Xml) : List Xml :=
  if members.isEmpty then [] else block "sectiondef" [] members

end Parts

def location (item : Item) : List Xml :=
  leafLine (utf8 "location")
    [escapedAttr "file" item.file, attr "line" (Bytes.ofNat item.pos.line),
      attr "col" (Bytes.ofNat item.pos.col)]

def initializer (init : Value) : List Xml :=
  if init.text.isEmpty then [] else line "initializer" [] (utf8 "= " ++ init.text)

def indexEntry (kind : String) (refId name : Bytes) : List Xml :=
  [.element (utf8 "member") [attr "kind" (utf8 kind), attr "refid" refId]
    [.element (utf8 "name") [] [.text name]],
    lineBreak]

def definition (kind : String) (refId : Bytes) (item : Item) (name : Bytes)
    (content : List Xml) : List Xml :=
  block "memberdef"
    [attr "kind" (utf8 kind), attr "id" refId, attr "prot" (utf8 "public"),
      attr "static" (if item.isLocal then utf8 "yes" else utf8 "no")]
    (line "name" [] name ++ content ++ location item)

def parameters (signature : Signature) : List Xml :=
  let named (ident : Ident) : List Xml :=
    [.element (utf8 "param") []
      [.element (utf8 "declname") [] [.text ident.name]], lineBreak]
  let rest : List Xml :=
    [.element (utf8 "param") []
      [.element (utf8 "type") [] [.text (utf8 "...")]], lineBreak]
  signature.params.flatMap named ++ (if signature.isVararg then rest else [])

def functionParts (item : Item) (signature : Signature) (name : Bytes)
    (id : BlockId) : CatalogM Parts := do
  let refId ← refIdOf id
  let text ← description id
  let notes ← footnotes id
  let content :=
    line "argsstring" [] signature.argsText ++ parameters signature ++ text
  return ⟨[], definition "function" refId item name content ++ notes,
    indexEntry "function" refId name⟩

def variableParts (item : Item) (init : Value) (name : Bytes) (id : BlockId) :
    CatalogM Parts := do
  let refId ← refIdOf id
  let text ← description id
  let notes ← footnotes id
  return ⟨[],
    definition "variable" refId item name (initializer init ++ text) ++ notes,
    indexEntry "variable" refId name⟩

def enumValue (id : ItemId) : CatalogM (List Xml × List Xml) := do
  match (← get).item? id with
  | none => return ([], [])
  | some item =>
    let own ← itemBlockOf id
    let refId ← refIdOf own
    let text ← description own
    let init := (item.init?.map initializer).getD []
    return (block "enumvalue" [attr "id" refId, attr "prot" (utf8 "public")]
      (line "name" [] item.name ++ init ++ text),
      indexEntry "enumvalue" refId item.name)

def enumParts (item : Item) (fields : List ItemId) (name : Bytes) (id : BlockId) :
    CatalogM Parts := do
  let refId ← refIdOf id
  let values ← fields.mapM enumValue
  let text ← description id
  let notes ← footnotes id
  return ⟨[],
    definition "enum" refId item name (values.flatMap Prod.fst ++ text) ++ notes,
    indexEntry "enum" refId name ++ values.flatMap Prod.snd⟩

end Page

end LuaGloss

import LuaGloss.Text.Bytes

/-!
# XML

Documents are built as trees and written in one place, so that every tag is
closed and every special character of a text is escaped.  Attribute values are
written as they are given, between apostrophes; the values that are not known to
be harmless are escaped when the tree is built.
-/

namespace LuaGloss

namespace Xml

/-- The five predefined entities stand for the characters that have a meaning of
their own. -/
def escapeByte (b : UInt8) : Bytes :=
  match b with
  | Byte.ampersand => utf8 "&amp;"
  | Byte.less => utf8 "&lt;"
  | Byte.greater => utf8 "&gt;"
  | Byte.apostrophe => utf8 "&apos;"
  | Byte.quote => utf8 "&quot;"
  | b => [b]

def escape (s : Bytes) : Bytes := s.flatMap escapeByte

/-- Letters in lower case, digits and underscores stay; everything else becomes
an underscore. -/
def idByte (b : UInt8) : UInt8 :=
  if Byte.isUpper b then Byte.toLower b
  else if Byte.isLower b || Byte.isDigit b || b == Byte.underscore then b
  else Byte.underscore

def idText (s : Bytes) : Bytes := s.map idByte

end Xml

abbrev XmlAttr := Bytes × Bytes

inductive Xml where
  | text (content : Bytes)
  | element (tag : Bytes) (attrs : List XmlAttr) (children : List Xml)
  /-- An element without content, written with one tag. -/
  | leaf (tag : Bytes) (attrs : List XmlAttr)

namespace Xml

def attr (name : String) (value : Bytes) : XmlAttr := (utf8 name, value)

def escapedAttr (name : String) (value : Bytes) : XmlAttr :=
  (utf8 name, escape value)

def attrText (a : XmlAttr) : Bytes :=
  Byte.space :: (a.1 ++ utf8 "='" ++ a.2 ++ utf8 "'")

def openTag (tag : Bytes) (attrs : List XmlAttr) : Bytes :=
  utf8 "<" ++ tag ++ attrs.flatMap attrText ++ utf8 ">"

def closeTag (tag : Bytes) : Bytes := utf8 "</" ++ tag ++ utf8 ">"

mutual

def render : Xml → Bytes
  | text content => escape content
  | element tag attrs children =>
    openTag tag attrs ++ (renderAll children ++ closeTag tag)
  | leaf tag attrs => utf8 "<" ++ tag ++ attrs.flatMap attrText ++ utf8 "/>"

def renderAll : List Xml → Bytes
  | [] => []
  | node :: nodes => render node ++ renderAll nodes

end

def lineBreak : Xml := text [Byte.lineFeed]

def block (tag : String) (attrs : List XmlAttr) (children : List Xml) : List Xml :=
  [element (utf8 tag) attrs (lineBreak :: children), lineBreak]

def line (tag : String) (attrs : List XmlAttr) (content : Bytes) : List Xml :=
  [element (utf8 tag) attrs [text content], lineBreak]

def leafLine (tag : Bytes) (attrs : List XmlAttr) : List Xml :=
  [leaf tag attrs, lineBreak]

end Xml

end LuaGloss

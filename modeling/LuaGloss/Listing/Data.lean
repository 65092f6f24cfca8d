import LuaGloss.Json
import LuaGloss.Listing.Entry

/-!
# Listings as data

A listing for other programs.  Fields that say nothing are left out.
-/

namespace LuaGloss

namespace JsonValue

def textField (name : String) (value : Bytes) : List (Bytes × JsonValue) :=
  if value.isEmpty then [] else [(utf8 name, .text value)]

def ofItems (items : List JsonValue) : JsonValue :=
  if items.isEmpty then .null else .array items

end JsonValue

namespace ListingEntry

def toJson (e : ListingEntry) (children : List JsonValue) : JsonValue :=
  .object <|
    [(utf8 "type", .text e.typeText), (utf8 "name", .text e.name),
      (utf8 "fullName", .text e.fullName)]
      ++ JsonValue.textField "kind" (e.kind.getD []) ++
        JsonValue.textField "signature" e.signature
      ++ JsonValue.textField "value" e.value
      ++ (if e.isLocal then [(utf8 "isLocal", .bool true)] else [])
      ++ [(utf8 "isRendered", .bool e.isRendered),
        (utf8 "hasComment", .bool e.isDocumented)]
      ++ JsonValue.textField "brief" e.brief
      ++ [(utf8 "file", .text e.file), (utf8 "line", .number e.pos.line),
        (utf8 "column", .number e.pos.col)]
      ++ (if children.isEmpty then [] else [(utf8 "children", .array children)])

end ListingEntry

namespace Catalog

mutual

def jsonOfTree (c : Catalog) : ItemTree → List JsonValue
  | .node id fields =>
    match c.item? id with
    | some item => [(c.listingEntry id item).toJson (jsonOfTrees c fields)]
    | none => []

def jsonOfTrees (c : Catalog) : List ItemTree → List JsonValue
  | [] => []
  | tree :: trees => jsonOfTree c tree ++ jsonOfTrees c trees

end

def listingData (c : Catalog) (files : List Bytes) (all : Bool) : Bytes :=
  let listing : JsonValue := .object
    [(utf8 "files", .ofItems (files.map .text)),
      (utf8 "items", .ofItems (c.jsonOfTrees (c.listed all))),
      (utf8 "warnings", .number c.docs.warnings)]
  listing.render 0 ++ [Byte.lineFeed]

end Catalog

end LuaGloss

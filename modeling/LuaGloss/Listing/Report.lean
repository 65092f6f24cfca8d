import LuaGloss.Listing.Entry
import LuaGloss.Number.Percent

/-!
# Listings to be read

A listing with one paragraph for every item at the top level, and a summary at
the end.
-/

namespace LuaGloss

namespace ListingEntry

def detail (indent : Bytes) (label : String) (content : Bytes) : Bytes :=
  if content.isEmpty then []
    else indent ++ utf8 label ++ content ++ [Byte.lineFeed]

def mark (isShown : Bool) (word : Bytes) : Bytes :=
  if isShown then utf8 " [" ++ word ++ utf8 "]" else []

def place (e : ListingEntry) : Bytes :=
  e.file ++ utf8 " line " ++ Bytes.ofNat e.pos.line ++ utf8 ", column " ++
    Bytes.ofNat e.pos.col

/-- The lines about an entry itself.  That a variable is a plain one is not
mentioned. -/
def report (e : ListingEntry) (depth : Nat) : Bytes :=
  let indent := List.replicate (2 * depth) Byte.space
  let kind := (e.kind.filter (· != VariableKind.normal.text)).getD []
  indent ++ e.typeText ++ utf8 ": " ++ e.name
    ++ (if e.fullName = e.name then [] else utf8 " (" ++ e.fullName ++ utf8 ")")
    ++ mark (!kind.isEmpty) kind ++ mark e.isLocal (utf8 "local") ++
      mark e.isDocumented (utf8 "documented")
    ++ mark (!e.isRendered) (utf8 "hidden") ++ [Byte.lineFeed]
    ++ detail indent "  Signature: " e.signature ++
      detail indent "  Value: " e.value
    ++ detail indent "  Location: " e.place ++ detail indent "  Brief: " e.brief

end ListingEntry

namespace Catalog

mutual

def reportTree (c : Catalog) (depth : Nat) : ItemTree → Bytes
  | .node id fields =>
    match c.item? id with
    | some item =>
      (c.listingEntry id item).report depth ++ reportTrees c (depth + 1) fields
    | none => []

def reportTrees (c : Catalog) (depth : Nat) : List ItemTree → Bytes
  | [] => []
  | tree :: trees => reportTree c depth tree ++ reportTrees c depth trees

end

def countLine (label : String) (count : Nat) : Bytes :=
  if count = 0 then []
    else utf8 label ++ utf8 ": " ++ Bytes.ofNat count ++ [Byte.lineFeed]

def summary (c : Catalog) (items : List ItemId) : Bytes :=
  let count (word : String) := items.countP fun id =>
    (c.item? id).any (·.typeText == utf8 word)
  let documented := items.countP c.isDocumented
  utf8 "Summary:\n--------\nTotal items: " ++ Bytes.ofNat items.length ++
    [Byte.lineFeed]
    ++ countLine "variable" (count "variable") ++
      countLine "function" (count "function")
    ++ (if items.isEmpty then []
      else utf8 "Documented: " ++ Bytes.ofNat documented ++ utf8 " (" ++
        percentText documented items.length
        ++ utf8 "%)\n")
    ++ utf8 "Warnings: " ++ Bytes.ofNat c.docs.warnings ++ [Byte.lineFeed]

def listingReport (c : Catalog) (files : List Bytes) (all : Bool) : Bytes :=
  let trees := c.listed all
  utf8 "Parsed files: " ++ Bytes.join (utf8 ", ") files ++
    utf8 "\n=====================================\n\n"
    ++ (trees.flatMap fun tree => c.reportTree 0 tree ++ [Byte.lineFeed])
    ++ c.summary (trees.map (·.item))

end Catalog

end LuaGloss

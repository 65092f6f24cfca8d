import LuaGloss.Catalog.Basic
import LuaGloss.Item.Tree

/-!
# Entries of a listing

What a listing says of one item, whatever form the listing has.
-/

namespace LuaGloss

structure ListingEntry where
  typeText : Bytes
  name : Bytes
  fullName : Bytes
  /-- The word for the kind of a variable or a field. -/
  kind : Option Bytes
  signature : Bytes
  value : Bytes
  isLocal : Bool
  isRendered : Bool
  isDocumented : Bool
  brief : Bytes
  file : Bytes
  pos : Pos
  deriving DecidableEq, Repr

namespace Catalog

def isDocumented (c : Catalog) (id : ItemId) : Bool :=
  (c.blockOf? id).any (!·.isEmpty)

/-- What is said of an item.  Instead of the value of a variable that holds a
function its signature is shown. -/
def listingEntry (c : Catalog) (id : ItemId) (item : Item) : ListingEntry where
  typeText := item.typeText
  name := item.name
  fullName := c.declarations.qualifiedName id
  kind := item.init?.map fun _ => (c.kindOf id).text
  signature := (item.signature?.map (·.argsText)).getD []
  value := if item.signature?.isSome then [] else (item.init?.map (·.text)).getD []
  isLocal := item.isLocal
  isRendered := c.isRendered id
  isDocumented := c.isDocumented id
  brief := ((c.blockOf? id).map (·.brief.trim)).getD []
  file := item.file
  pos := item.pos

def listed (c : Catalog) (all : Bool) : List ItemTree :=
  c.declarations.forest fun id => all || c.isRendered id

end Catalog

end LuaGloss

import LuaGloss.Catalog.Basic

/-!
# References

A comment can name the item that it documents, and other items to look at.  A
name that means something already is bound at once; any other is put into a
queue and looked up again when all sources have been read.
-/

namespace LuaGloss

def Docs.enqueue (d : Docs) (reference : Reference) : Docs :=
  { d with queue := d.queue ++ [reference] }

namespace Catalog

variable (c : Catalog) (block : BlockId)

/-- Makes a block the documentation of the item that it names, unless the block
or the item is taken. -/
def bindTarget (item : ItemId) (name : Bytes) : Catalog :=
  match c.docs.block? block with
  | none => c
  | some b =>
    if c.docs.blockOf? item = some block then c
    else if b.item.isSome then c.warn b.file b.pos (.blockAlreadyAttached name)
    else if (c.blockOf? item).any (!·.isEmpty) then
      c.warn b.file b.pos (.itemAlreadyDocumented name)
    else c.attach item block

def setTarget (command : Command) (name : Bytes) (overload : Int) : Catalog :=
  let c := c.modifyBlock block fun b => { b with hasTarget := true }
  match c.declarations.findOverload name overload with
  | some item => c.bindTarget block item name
  | none => c.mapDocs (·.enqueue ⟨block, command, name, overload, none⟩)

def addSeeAlso (name : Bytes) : Catalog :=
  let item := c.declarations.find name
  let entry := ((c.docs.block? block).map (·.seeAlso.length)).getD 0
  let c :=
    c.modifyBlock block fun b => { b with seeAlso := b.seeAlso ++ [⟨name, item⟩] }
  match item with
  | some _ => c
  | none => c.mapDocs (·.enqueue ⟨block, .see, name, 0, some entry⟩)

def bindSeeAlso (entry : Nat) (item : ItemId) : Catalog :=
  c.modifyBlock block fun b =>
    { b with
      seeAlso := b.seeAlso.modify entry fun see => { see with item := some item } }

def referent? (reference : Reference) : Option ItemId :=
  c.declarations.findOverload reference.name reference.overload

/-- Binds a queued name to what it means now, or warns that it still means
nothing. -/
def resolveOne (reference : Reference) : Catalog :=
  match c.referent? reference, reference.entry with
  | some item, some entry => c.bindSeeAlso reference.block entry item
  | some item, none => c.bindTarget reference.block item reference.name
  | none, _ =>
    let (file, pos) :=
      ((c.docs.block? reference.block).map fun b =>
        (b.file, b.pos)).getD ([], .none)
    c.warn file
      pos (.unresolvedReference reference.command reference.name
        reference.overload)

def resolveNext (state : Catalog × List Reference) (reference : Reference) :
    Catalog × List Reference :=
  let (c, unresolved) := state
  (c.resolveOne reference,
    if (c.referent? reference).isNone then unresolved ++ [reference]
      else unresolved)

def resolve : Catalog :=
  let (c, unresolved) := c.docs.queue.foldl resolveNext (c, [])
  c.mapDocs fun d => { d with queue := [], unresolved }

end Catalog

end LuaGloss

import LuaGloss.Proofs.Item.Ownership
import LuaGloss.Proofs.Run.Steps

/-!
# Owners and entries in a run

Whatever has been read, with or without errors, tables, their owners and their
entries fit together.  The questions that go from an item to the owner of its
table, its full name and whether it is shown, can be answered along the owners.
-/

namespace LuaGloss

namespace Catalog

/-- Whether an entry of a table is shown where its owner is: it has a name, and
either the table is more than a plain one or the entry has documentation of its
own. -/
def isShownUnder (c : Catalog) (owner id : ItemId) : Bool :=
  (c.item? id).any (!·.name.isEmpty) && (c.item? owner).any (·.init?.isSome) &&
    (c.kindOf owner != .normal || (c.blockOf? id).any fun b => !b.isEmpty)

/-- Whether an item is shown depends on the item and on whether the owner of its
table is shown. -/
theorem isRendered_eq {c : Catalog} (hd : c.declarations.WellFormed)
    {id : ItemId} {item : Item} (hitem : c.item? id = some item) :
    c.isRendered id =
      ((item.isPrimary || c.isDocumentedOverload id) &&
        (c.declarations.ownerOf? item).all fun owner =>
          c.isRendered owner && c.isShownUnder owner id) := by
  change c.isLineRendered (c.declarations.lineage id) = _
  cases howner : c.declarations.ownerOf? item with
  | none =>
      have htop : item.table? = none := by
        cases htable : item.table? with
        | none => rfl
        | some table =>
            obtain ⟨owner, howner', -⟩ := hd.owner_of_table? hitem htable
            simp [howner] at howner'
      have hline : c.declarations.lineage id = [id] := by
        have hitem' : c.declarations.item? id = some item := hitem
        rw [Declarations.lineage]
        simp [hitem', howner]
      simp [hline, isLineRendered, hitem, htop]
  | some owner =>
      have hentry : item.table?.isNone = false := by
        cases htable : item.table? with
        | none => simp [Declarations.ownerOf?, htable] at howner
        | some table => rfl
      have hlt := (hd.lt_of_owns ⟨item, hitem, howner⟩).2
      obtain ⟨item', hitem'⟩ :=
        Option.isSome_iff_exists.1 (Declarations.item?_isSome.2 hlt)
      obtain ⟨owners, howners⟩ := Declarations.lineage_of_item? hitem'
      have hrendered :
          c.isLineRendered (owner :: owners) = c.isRendered owner := by
        rw [isRendered, howners]
      rw [hd.lineage_owned hitem howner, howners]
      unfold isLineRendered
      simp only [hitem, hentry, hrendered, isShownUnder, Option.any_some,
        Option.all_some, Bool.false_or]
      ac_rfl

end Catalog

namespace Run

/-- After any sources, tables and items form a graph in which owners come before
entries, and full names and what is shown are determined along the owners. -/
theorem readAll_isItemGraph (settings : Settings) (vocabulary : Vocabulary)
    (language : Bytes) (sources : List SourceText) :
    let c := ((fresh settings vocabulary language).readAll sources).catalog
    c.declarations.IsItemGraph ∧
      ∀ id item, c.item? id = some item →
        c.declarations.qualifiedName id =
            Declarations.joinName
              ((c.declarations.ownerOf? item).map c.declarations.qualifiedName)
              item ∧
          c.isRendered id =
            ((item.isPrimary || c.isDocumentedOverload id) &&
              (c.declarations.ownerOf? item).all fun owner =>
                c.isRendered owner && c.isShownUnder owner id) := by
  intro c
  have hd : c.declarations.WellFormed :=
    (consistent_readAll settings vocabulary language sources).declarations
  refine ⟨hd.isItemGraph, ?_⟩
  intro id item hitem
  exact ⟨hd.qualifiedName_eq hitem, Catalog.isRendered_eq hd hitem⟩

end Run

end LuaGloss

import LuaGloss.Proofs.Item.QualifiedNames
import LuaGloss.Proofs.Run.References

/-!
# Full names in a run

Whatever has been read, with or without errors, the full name of an item leads
back to the item, as long as it is the first declaration of its name and so are
the owners above it.
-/

namespace LuaGloss

namespace Run

/-- Unless a name at the top level is declared both as a local and as a global
variable, or a name has a dot or a colon in it, the full name of every item that
is reached from the top level means the item itself, if the item and the owners
of the tables around it have names and are the first declarations of theirs. -/
theorem find_qualifiedName (settings : Settings) (vocabulary : Vocabulary)
    (language : Bytes) (sources : List SourceText) :
    let d :=
  ((fresh settings vocabulary language).readAll sources).catalog.declarations
    (∀ name, ∀ id ∈ d.declarationsOf name, ∀ other ∈ d.declarationsOf name,
      d.isLocalAt id = d.isLocalAt other) →
    (∀ item ∈ d.items.toList, Byte.dot ∉ item.name ∧ Byte.colon ∉ item.name) →
    ∀ id, d.Reached id →
      (∀ other ∈ d.lineage id, d.isPrimaryNamedAt other = true) →
      d.find (d.qualifiedName id) = some id := by
  intro d hclear hsimple id hreached hprimary
  have hunfolds : Declarations.empty.Unfolds d :=
    (unfolds_readAll (fresh settings vocabulary language) sources).declarations
  have hd : d.WellFormed :=
    (consistent_readAll settings vocabulary language sources).declarations
  exact Declarations.find_qualifiedName_of_reached hunfolds hd hclear hsimple
    hreached hprimary

/-- A table in a table, which gets a method in another source, and a second
declaration of the outer one. -/
private def nestedSources : List SourceText :=
  [⟨utf8 "a.lua", utf8 "t = \x7bu = \x7b\x7d\x7d\n"⟩,
    ⟨utf8 "b.lua", utf8 "function t.u:m() end\nt = 1\n"⟩]

private def nestedDeclarations : Declarations :=
  ((fresh .default .default (utf8 "Lua")).readAll
    nestedSources).catalog.declarations

/-- The name of the method leads through both tables. -/
theorem find_qualifiedName_method :
    (nestedDeclarations.items.map (·.isPrimary) = #[true, true, true, false] ∧
      nestedDeclarations.qualifiedName 2 = utf8 "t.u:m") ∧
    nestedDeclarations.find (utf8 "t.u:m") = some 2 := by
  have hrun :
      nestedDeclarations.items.map (·.isPrimary) = #[true, true, true, false] ∧
      nestedDeclarations.qualifiedName 2 = utf8 "t.u:m" := by
    decide +kernel
  have hclear : nestedDeclarations.Unambiguous := by decide +kernel
  have hsimple : ∀ item ∈ nestedDeclarations.items.toList, Byte.dot ∉
      item.name ∧ Byte.colon ∉ item.name := by
    decide +kernel
  have htop : (nestedDeclarations.item? 0).map (·.table?) = some none := by
    decide +kernel
  obtain ⟨item, hitem, htable⟩ := Option.map_eq_some_iff.1 htop
  have hreached : nestedDeclarations.Reached 2 :=
    .field (.field (.top hitem htable) (show 1 ∈ _ by decide +kernel))
      (by decide +kernel)
  have hprimary : ∀ other ∈ nestedDeclarations.lineage 2,
      nestedDeclarations.isPrimaryNamedAt other = true := by
    decide +kernel
  have hfind := find_qualifiedName .default .default (utf8 "Lua") nestedSources
    (fun _ _ hid _ hother => hclear.isLocalAt_eq hid hother) hsimple 2
    hreached hprimary
  exact ⟨hrun, hrun.2 ▸ hfind⟩

end Run

end LuaGloss

import LuaGloss.Item.Declarations

/-!
# The item graph

What the declarations of a run come to when the source texts are left out of
them: the items and tables with everything that they refer to, and the names by
which they are found.  Every question that is asked while sources are read has
the same answer for the graph as for the declarations, and every change to the
declarations is the same change to the graph.  Two runs with equal graphs can
therefore not be told apart by what they declare next.
-/

namespace LuaGloss

def Value.bare (v : Value) : Value := { v with source := [] }

def ItemShape.bare : ItemShape → ItemShape
  | .function signature => .function signature
  | .variable_ init => .variable_ init.bare
  | .field table init index => .field table init.bare index.bare

def Item.bare (item : Item) : Item := { item with shape := item.shape.bare }

/-- The declarations without the source texts. -/
def Declarations.graph (d : Declarations) : Declarations :=
  { d with items := d.items.map Item.bare, sources := #[] }

/-! ## Values -/

namespace Value

variable (v : Value)

@[simp] theorem shape_bare : v.bare.shape = v.shape := rfl

@[simp] theorem ref_bare : v.bare.ref = v.ref := rfl

@[simp] theorem signature?_bare : v.bare.signature? = v.signature? := rfl

theorem bare_extend (pos : Pos) : (v.extend pos).bare = v.bare.extend pos := by
  unfold extend extendTo
  have hempty : v.bare.isEmpty = v.isEmpty := rfl
  rw [hempty]
  split <;> rfl

theorem bare_withTable (id : Option TableId) :
    (v.withTable id).bare = v.bare.withTable id := by
  unfold withTable
  rw [shape_bare]
  split <;> rfl

end Value

/-! ## Items -/

namespace Item

variable (item : Item)

@[simp] theorem name_bare : item.bare.name = item.name := rfl

@[simp] theorem isLocal_bare : item.bare.isLocal = item.isLocal := rfl

@[simp] theorem table?_bare : item.bare.table? = item.table? := by
  unfold table? bare ItemShape.bare
  cases item.shape <;> rfl

@[simp] theorem init?_bare : item.bare.init? = item.init?.map Value.bare := by
  unfold init? bare ItemShape.bare
  cases item.shape <;> rfl

@[simp] theorem isMethod_bare : item.bare.isMethod = item.isMethod := by
  unfold isMethod bare ItemShape.bare
  cases item.shape <;> rfl

theorem bare_withInit (init : Value) :
    (item.withInit init).bare = item.bare.withInit init.bare := by
  obtain ⟨name, file, pos, isLocal, isPrimary, shape⟩ := item
  cases shape <;> rfl

end Item

/-! ## Questions -/

namespace Declarations

variable (d : Declarations)

@[simp] theorem items_size_graph : d.graph.items.size = d.items.size := by
  simp [graph]

variable (id : ItemId)

@[simp] theorem item?_graph : d.graph.item? id = (d.item? id).map Item.bare := by
  simp [graph, item?]

@[simp] theorem table?_graph (id : TableId) : d.graph.table? id = d.table? id :=
  rfl

@[simp] theorem lookup_graph (name : Bytes) :
    d.graph.lookup name = d.lookup name := rfl

@[simp] theorem overloads_graph (name : Bytes) :
    d.graph.overloads name = d.overloads name := rfl

@[simp] theorem ownerOf?_graph (item : Item) :
    d.graph.ownerOf? item.bare = d.ownerOf? item := by
  simp [ownerOf?]

@[simp] theorem lineage_graph : d.graph.lineage id = d.lineage id := by
  fun_induction lineage d id with
  | case1 id hitem =>
      rw [lineage]
      simp [hitem]
  | case2 id item hitem howner =>
      rw [lineage]
      simp [hitem, howner]
  | case3 id item hitem owner howner hlt ih =>
      rw [lineage]
      simp [hitem, howner, hlt, ih]
  | case4 id item hitem owner howner hge =>
      rw [lineage]
      simp [hitem, howner, hge]

@[simp] theorem joinName_bare (owner : Option Bytes) (item : Item) :
    joinName owner item.bare = joinName owner item := by
  simp [joinName]

@[simp] theorem lineName_graph (ids : List ItemId) :
    d.graph.lineName ids = d.lineName ids := by
  have hjoin (owner : Option Bytes) :
      joinName owner ∘ Item.bare = joinName owner :=
    funext fun item => joinName_bare owner item
  fun_induction lineName d ids with
  | case1 => rfl
  | case2 id => simp [lineName, hjoin]
  | case3 id owners howners ih => simp [lineName, hjoin, ih]

@[simp] theorem fullName?_graph (item : Item) :
    d.graph.fullName? item.bare = d.fullName? item := by
  simp [fullName?, qualifiedName]

@[simp] theorem findField_graph (table : TableId) (name : Bytes) :
    d.graph.findField table name = d.findField table name := by
  unfold findField
  simp [Option.any_map]

theorem memberBy_graph (tableOf : ItemId → Option TableId) (id : ItemId)
    (path : List Bytes) :
    d.graph.memberBy tableOf id path = d.memberBy tableOf id path := by
  induction path generalizing id with
  | nil => rfl
  | cons name path ih =>
      simp only [memberBy, findField_graph]
      split
      · exact ih _
      · rfl

theorem findBy_graph (tableOf : ItemId → Option TableId) (name : Bytes) :
    d.graph.findBy tableOf name = d.findBy tableOf name := by
  simp only [findBy, memberBy_graph, lookup_graph]

theorem followAliases_graph (find : Bytes → Option ItemId) (steps : Nat)
    (id : ItemId) :
    d.graph.followAliases find steps id = d.followAliases find steps id := by
  induction steps generalizing id with
  | zero => rfl
  | succ steps ih =>
      unfold followAliases
      cases hitem : d.item? id with
      | none => simp [hitem]
      | some item => cases hinit : item.init? <;> simp [hitem, hinit, ih]

theorem tableWithin_graph (depth : Nat) :
    d.graph.tableWithin depth = d.tableWithin depth := by
  induction depth with
  | zero => rfl
  | succ depth ih =>
      funext id
      have hfind : d.graph.findBy (d.graph.tableWithin depth) =
          d.findBy (d.tableWithin depth) := by
        funext name
        rw [ih, findBy_graph]
      simp only [tableWithin, hfind, followAliases_graph]

@[simp] theorem tableOf_graph : d.graph.tableOf = d.tableOf := by
  funext id
  simp only [tableOf, items_size_graph, tableWithin_graph]

@[simp] theorem findMember_graph (path : List Bytes) :
    d.graph.findMember id path = d.findMember id path := by
  simp only [findMember, tableOf_graph, memberBy_graph]

/-! ## Changes -/

theorem graph_addTable (owner : Option ItemId) :
    (d.addTable owner).graph = d.graph.addTable owner := rfl

theorem graph_add (item : Item) : (d.add item).graph = d.graph.add item.bare := by
  unfold add
  simp only [fullName?_graph, overloads_graph, items_size_graph,
    Item.table?_bare, Item.name_bare, Item.isLocal_bare, addField]
  simp only [graph, Array.map_push]
  rfl

theorem graph_modifyItem {f f' : Item → Item}
    (hf : ∀ item, (f item).bare = f' item.bare) :
    (d.modifyItem id f).graph = d.graph.modifyItem id f' := by
  have hitems : (d.items.modify id f).map Item.bare =
      (d.items.map Item.bare).modify id f' := by
    apply Array.ext_getElem?
    intro i
    simp only [Array.getElem?_map, Array.getElem?_modify]
    split
    · simp [Function.comp_def, hf]
    · rfl
  simp only [graph, modifyItem, hitems]

end Declarations

end LuaGloss

import LuaGloss.Proofs.Docs.Invariant
import LuaGloss.Proofs.Item.WellFormed
import Mathlib.Logic.Relation

/-!
# Steps of a run

A run changes the catalog one step at a time.  The steps are the operations of
the program that change links: new blocks, footnotes and groups, declarations,
tables and initializers, the binding of a block to the item that it names, the
block that an item gets when one is asked for, and reference ids.  Everything
else that happens leaves the links alone.

What holds in the beginning and is kept by every step holds throughout a run.
-/

namespace LuaGloss

namespace Catalog

def declared (c : Catalog) (item : Item) (block : Option BlockId) : Catalog :=
  match block with
  | some block => (c.addItem item).2.attach (c.addItem item).1 block
  | none => (c.addItem item).2

inductive Step : Catalog → Catalog → Prop
  /-- Notices, names to be looked up, and how groups lie in each other.  What
  blocks say is only added to, but for their titles. -/
  | edit {c : Catalog} {docs : Docs} : c.docs.Agrees docs →
      c.docs.Blockwise Block.Continues docs → Step c { c with docs }
  | newBlock (c : Catalog) (file : Bytes) (pos : Pos) :
      Step c (c.newBlock file pos).2
  | footnote (c : Catalog) (parent : BlockId) :
      Step c (c.mapDocs (·.addFootnote parent))
  | group (c : Catalog) (name : Bytes) :
      Step c { c with docs := (c.docs.getGroup name).2 }
  /-- A block is bound to the item that it names. -/
  | bind {c : Catalog} {item : ItemId} (block : BlockId) (name : Bytes) :
      item < c.declarations.items.size → Step c (c.bindTarget block item name)
  /-- The block of an item is asked for. -/
  | demand {c : Catalog} {item : ItemId} :
      item < c.declarations.items.size → Step c (c.itemBlock item).2
  | refId {c : Catalog} {block : BlockId} {b : Block} {wanted : Bytes} :
      c.docs.block? block = some b → b.refId = none → Xml.isId wanted = true →
      Step c (c.giveRefId block wanted).2
  /-- An item is put into a group. -/
  | collect {c : Catalog} {item : ItemId} (group : GroupId) :
      item < c.declarations.items.size →
      Step c (c.mapDocs (·.addGroupItem group item))
  | source (c : Catalog) (source : SourceText) :
      Step c { c with declarations := c.declarations.addSource source }
  | table {c : Catalog} {owner : ItemId} :
      owner < c.declarations.items.size → Step c (c.newTable (some owner)).2
  /-- An item changes, but not its place nor its documentation. -/
  | modify {c : Catalog} {id : ItemId} {f : Item → Item} :
      (∀ item, (f item).table? = item.table?) →
      (∀ item, c.item? id = some item → ∀ table, (f item).initTable? = some table →
        ∃ t, c.declarations.table? table = some t ∧ t.owner = some id) →
      Step c (c.modifyItem id f)
  /-- A declaration is recorded.  The block that it gets documents nothing
  yet. -/
  | declare {c : Catalog} {item : Item} {block : Option BlockId} :
      c.declarations.Accepts item →
      (∀ id, block = some id → ∃ b, c.docs.block? id = some b ∧ b.item = none) →
      Step c (c.declared item block)

theorem Step.note (c : Catalog) (notice : Notice) : c.Step (c.note notice) :=
  .edit (.note c.docs notice) (.of_blocks Block.Continues.refl rfl)

theorem Step.warn (c : Catalog) (file : Bytes) (pos : Pos) (what : Warning) :
    c.Step (c.warn file pos what) :=
  .edit (.warn c.docs file pos what) (.of_blocks Block.Continues.refl rfl)

theorem Step.modifyBlock (c : Catalog) (id : BlockId) {f : Block → Block}
    (hlinks : ∀ b, (f b).links = b.links) (hf : ∀ b : Block, b.Continues (f b)) :
    c.Step (c.modifyBlock id f) :=
  .edit (.modifyBlock c.docs id hlinks)
    (.modifyBlock Block.Continues.refl id fun b _ => hf b)

/-- What a run can come to from a catalog. -/
def Reaches : Catalog → Catalog → Prop := Relation.ReflTransGen Step

/-- What holds of a catalog throughout a run. -/
structure Consistent (c : Catalog) : Prop where
  declarations : c.declarations.WellFormed
  docs : c.docs.Linked c.declarations.items.size

/-! ## What a run begins with -/

theorem Consistent.empty (vocabulary : Vocabulary) (language : Bytes) :
    Consistent ((Catalog.empty vocabulary).mapDocs fun d => { d with language }) :=
  ⟨.empty, .empty language 0⟩

theorem Consistent.blockOf?_inj {c : Catalog} (hc : c.Consistent)
    {item item' : ItemId} {block : BlockId}
    (h : c.docs.blockOf? item = some block)
    (h' : c.docs.blockOf? item' = some block) : item = item' := by
  obtain ⟨links, hlinks, hitem⟩ := hc.docs.attached.item item block h
  obtain ⟨links', hlinks', hitem'⟩ := hc.docs.attached.item item' block h'
  obtain rfl := Option.some.inj (hlinks.symm.trans hlinks')
  exact Option.some.inj (hitem.symm.trans hitem')

/-! ## What a step does to items and their blocks -/

@[simp] theorem docs_mapDocs (c : Catalog) (f : Docs → Docs) :
    (c.mapDocs f).docs = f c.docs := rfl

theorem declarations_addItem (c : Catalog) (item : Item) :
    (c.addItem item).2.declarations = c.declarations.add item := by
  unfold addItem
  dsimp only
  split <;> rfl

theorem agrees_addItem (c : Catalog) (item : Item) :
    c.docs.Agrees (c.addItem item).2.docs := by
  unfold addItem
  dsimp only
  split
  · exact .note c.docs _
  · exact .refl c.docs

theorem declarations_declared (c : Catalog) (item : Item)
    (block : Option BlockId) :
    (c.declared item block).declarations = c.declarations.add item := by
  unfold declared
  cases block with
  | none => exact c.declarations_addItem item
  | some block => exact c.declarations_addItem item

theorem declarations_bindTarget (c : Catalog) (block : BlockId) (item : ItemId)
    (name : Bytes) :
    (c.bindTarget block item name).declarations = c.declarations := by
  unfold bindTarget
  split
  · rfl
  · split
    · rfl
    · split
      · rfl
      · split <;> rfl

theorem vocabulary_bindTarget (c : Catalog) (block : BlockId) (item : ItemId)
    (name : Bytes) :
    (c.bindTarget block item name).vocabulary = c.vocabulary := by
  unfold bindTarget
  repeat' split
  all_goals rfl

/-- Binding a name changes links only if the block documents nothing and the
item has nothing worth keeping. -/
theorem bindTarget_cases (c : Catalog) (block : BlockId) (item : ItemId)
    (name : Bytes) :
    c.docs.Agrees (c.bindTarget block item name).docs ∨
      ∃ b, c.docs.block? block = some b ∧ b.item = none ∧
        (c.blockOf? item).any (!·.isEmpty) = false ∧
        c.bindTarget block item name = c.attach item block := by
  unfold bindTarget
  split
  next => exact .inl (.refl _)
  next b hb =>
    split
    · exact .inl (.refl _)
    · split
      · exact .inl (.warn _ _ _ _)
      next hitem =>
        split
        · exact .inl (.warn _ _ _ _)
        next hempty =>
          exact .inr ⟨b, hb, by simpa using hitem, by simpa using hempty, rfl⟩

theorem blockwise_bindTarget {R : Block → Block → Prop} (hrefl : ∀ b, R b b)
    {c : Catalog} {block : BlockId} {item : ItemId}
    (hf : ∀ b, c.docs.block? block = some b → R b { b with item := some item })
    (name : Bytes) :
    c.docs.Blockwise R (c.bindTarget block item name).docs := by
  have hsame : c.docs.Blockwise R c.docs := .of_blocks hrefl rfl
  unfold bindTarget
  split
  · exact hsame
  · split
    · exact hsame
    · split
      · exact hsame
      · split
        · exact hsame
        · exact .modifyBlock hrefl block hf

theorem declarations_itemBlock (c : Catalog) (item : ItemId) :
    (c.itemBlock item).2.declarations = c.declarations := by
  unfold itemBlock
  split <;> rfl

theorem itemBlock_cases (c : Catalog) (item : ItemId) :
    (∃ block, c.docs.blockOf? item = some block ∧ c.itemBlock item = (block, c)) ∨
      c.docs.blockOf? item = none ∧ ∃ file pos,
        c.itemBlock item =
          (c.docs.blocks.size, c.mapDocs fun d =>
            (d.addBlock file pos).attach item d.blocks.size) := by
  unfold itemBlock
  split
  next block hblock => exact .inl ⟨block, hblock, rfl⟩
  next hnone => exact .inr ⟨hnone, _, _, rfl⟩

/-! ## Invariants -/

namespace Step

variable {c c' : Catalog}

theorem size_le (h : c.Step c') :
    c.declarations.items.size ≤ c'.declarations.items.size := by
  cases h with
  | bind block name _ => exact Nat.le_of_eq (by rw [declarations_bindTarget])
  | demand _ => exact Nat.le_of_eq (by rw [declarations_itemBlock])
  | modify _ _ =>
      exact Nat.le_of_eq (Declarations.items_size_modifyItem _ _ _).symm
  | declare _ _ =>
      rw [declarations_declared, Declarations.items_size_add]
      exact Nat.le_succ _
  | _ => exact Nat.le_refl _

theorem wellFormed (h : c.Step c') (hc : c.declarations.WellFormed) :
    c'.declarations.WellFormed := by
  cases h with
  | bind block name _ =>
      rw [declarations_bindTarget]
      exact hc
  | demand _ =>
      rw [declarations_itemBlock]
      exact hc
  | source source => exact hc.addSource source
  | table howner => exact hc.addTable howner
  | modify htable hinit => exact hc.modifyItem htable hinit
  | declare hitem _ =>
      rw [declarations_declared]
      exact hc.add hitem
  | _ => exact hc

theorem linked (h : c.Step c') (hc : c.docs.Linked c.declarations.items.size) :
    c'.docs.Linked c'.declarations.items.size := by
  cases h with
  | edit hagrees _ => exact hc.agrees hagrees
  | newBlock file pos => exact hc.addBlock file pos
  | footnote parent => exact hc.addFootnote parent
  | group name => exact hc.getGroup name
  | @bind item block name hitem =>
      rw [declarations_bindTarget]
      rcases c.bindTarget_cases block item name with
        hagrees | ⟨b, hb, hfree, -, heq⟩
      · exact hc.agrees hagrees
      · rw [heq]
        exact hc.attach (Docs.links?_of_block? hb) hfree hitem
  | @demand item hitem =>
      rw [declarations_itemBlock]
      rcases c.itemBlock_cases item with ⟨block, -, heq⟩ | ⟨-, file, pos, heq⟩
      · rw [heq]
        exact hc
      · rw [heq]
        have hnew : (c.docs.addBlock file pos).links? c.docs.blocks.size =
            some ⟨.normal, none, [], none⟩ := by
          rw [Docs.links?_addBlock, if_pos rfl]
        exact (hc.addBlock file pos).attach hnew rfl hitem
  | @refId block b wanted _ _ hwanted =>
      exact hc.giveRefId (c.docs.freshId_fresh wanted) hwanted
  | collect group hitem => exact hc.addGroupItem group hitem
  | source source => exact hc
  | table howner => exact hc
  | modify _ _ =>
      unfold modifyItem
      rw [Declarations.items_size_modifyItem]
      exact hc
  | @declare item block _ hblock =>
      rw [declarations_declared, Declarations.items_size_add]
      have hadded := (hc.agrees (c.agrees_addItem item)).mono (Nat.le_succ _)
      cases block with
      | none => exact hadded
      | some block =>
          obtain ⟨b, hb, hfree⟩ := hblock block rfl
          have hlinks :=
            ((c.agrees_addItem item).blocks block).trans (Docs.links?_of_block? hb)
          exact hadded.attach hlinks hfree (Nat.lt_succ_self _)

theorem consistent (h : c.Step c') (hc : c.Consistent) : c'.Consistent :=
  ⟨h.wellFormed hc.declarations, h.linked hc.docs⟩

/-- A step leaves an item its block, unless the item has none yet or one that is
empty. -/
theorem blockOf? (h : c.Step c') (hc : c.Consistent) (item : ItemId) :
    c'.docs.blockOf? item = c.docs.blockOf? item ∨
    (c.blockOf? item).any (!·.isEmpty) = false := by
  cases h with
  | edit hagrees _ => exact .inl (hagrees.blockOf? item)
  | footnote parent =>
      left
      simp only [docs_mapDocs]
      unfold Docs.addFootnote
      split <;> rfl
  | group name =>
      left
      unfold Docs.getGroup
      dsimp only
      split <;> rfl
  | @bind target block name _ =>
      rcases c.bindTarget_cases block target name with
        hagrees | ⟨b, -, -, hempty, heq⟩
      · exact .inl (hagrees.blockOf? item)
      · rw [heq]
        by_cases hitem : item = target
        · rw [hitem]
          exact .inr hempty
        · left
          exact (c.docs.blockOf?_attach target item block).trans (if_neg hitem)
  | @demand target _ =>
      rcases c.itemBlock_cases target with
        ⟨block, -, heq⟩ | ⟨hnone, file, pos, heq⟩
      · rw [heq]
        exact .inl rfl
      · rw [heq]
        by_cases hitem : item = target
        · right
          simp [Catalog.blockOf?, hitem, hnone]
        · left
          exact ((c.docs.addBlock file pos).blockOf?_attach target item _).trans
            (if_neg hitem)
  | refId _ _ _ =>
      left
      have hrest := (c.docs.freshId_fresh ‹_›).rest
      unfold Docs.blockOf? giveRefId
      dsimp only [Docs.modifyBlock]
      rw [hrest]
  | @declare new block _ _ =>
      have hsame := (c.agrees_addItem new).blockOf? item
      cases block with
      | none => exact .inl hsame
      | some block =>
          by_cases hitem : item = c.declarations.items.size
          · right
            have hnone : c.docs.blockOf? item = none := by
              cases hblock : c.docs.blockOf? item with
              | none => rfl
              | some b =>
                  have hlt := hc.docs.attached.bound item b hblock
                  exact (Nat.lt_irrefl _ (hitem ▸ hlt)).elim
            simp [Catalog.blockOf?, hnone]
          · left
            exact ((c.addItem new).2.docs.blockOf?_attach _ item block).trans
              ((if_neg hitem).trans hsame)
  | _ => exact .inl rfl

theorem vocabulary (h : c.Step c') : c'.vocabulary = c.vocabulary := by
  cases h with
  | bind block name _ => exact vocabulary_bindTarget _ _ _ _
  | demand _ =>
      unfold itemBlock
      split <;> rfl
  | @declare item block _ _ =>
      have hadded : (c.addItem item).2.vocabulary = c.vocabulary := by
        unfold addItem
        dsimp only
        split <;> rfl
      cases block <;> exact hadded
  | _ => rfl

end Step

namespace Reaches

variable {c c' c'' : Catalog}

theorem refl (c : Catalog) : c.Reaches c := Relation.ReflTransGen.refl

theorem trans (h : c.Reaches c') (h' : c'.Reaches c'') : c.Reaches c'' :=
  Relation.ReflTransGen.trans h h'

theorem single (h : c.Step c') : c.Reaches c' := Relation.ReflTransGen.single h

theorem tail (h : c.Reaches c') (h' : c'.Step c'') : c.Reaches c'' :=
  Relation.ReflTransGen.tail h h'

theorem size_le (h : c.Reaches c') :
    c.declarations.items.size ≤ c'.declarations.items.size := by
  induction h with
  | refl => exact Nat.le_refl _
  | tail _ hstep ih => exact Nat.le_trans ih hstep.size_le

/-- Whatever holds in the beginning holds throughout a run. -/
theorem consistent (h : c.Reaches c') (hc : c.Consistent) : c'.Consistent := by
  induction h with
  | refl => exact hc
  | tail _ hstep ih => exact hstep.consistent ih

theorem vocabulary (h : c.Reaches c') : c'.vocabulary = c.vocabulary := by
  induction h with
  | refl => rfl
  | tail _ hstep ih => exact hstep.vocabulary.trans ih

end Reaches

end Catalog

end LuaGloss

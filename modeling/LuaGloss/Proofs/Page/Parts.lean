import LuaGloss.Proofs.Page.Definitions

/-!
# Putting parts of pages together

The parts of a page are put together in a state that gives out reference ids.
What has its id from a block has one as soon as the id of the block has been
asked for.
-/

namespace LuaGloss

namespace Page

/-- From a consistent catalog the action comes to another one by writing, and
its result is as `post` says. -/
def Yields (action : CatalogM α) (c : Catalog) (post : α → Catalog → Prop) :
    Prop :=
  c.Consistent → c.Renders (action.run c).run.2 ∧
    post (action.run c).run.1 (action.run c).run.2

namespace Yields

theorem assuming {action : CatalogM α} {c : Catalog} {post : α → Catalog → Prop}
    (h : c.Consistent → Yields action c post) : Yields action c post :=
  fun hc => h hc hc

theorem pure {a : α} {c : Catalog} {post : α → Catalog → Prop} (h : post a c) :
    Yields (Pure.pure a : CatalogM α) c post :=
  fun _ => ⟨.refl c, h⟩

theorem andThen {action : CatalogM α} {next : α → CatalogM β} {c : Catalog}
    {mid : α → Catalog → Prop} {post : β → Catalog → Prop}
    (h : Yields action c mid)
    (hnext : ∀ a c', c.Renders c' → c'.Consistent → mid a c' →
      Yields (next a) c' post) :
    Yields (action >>= next) c post := by
  intro hc
  obtain ⟨hrenders, hmid⟩ := h hc
  have hc' := hrenders.consistent hc
  obtain ⟨hrenders', hpost⟩ := hnext _ _ hrenders hc' hmid hc'
  exact ⟨hrenders.trans hrenders', hpost⟩

end Yields

end Page

/-! ## Reference ids -/

namespace Docs

theorem footnoteLine_head {d : Docs} {id : BlockId} {b : Block}
    (h : d.block? id = some b) :
    ∃ parents, d.footnoteLine id = id :: parents := by
  unfold footnoteLine
  rw [h]
  split
  · split
    · exact ⟨_, rfl⟩
    · exact ⟨_, rfl⟩
  · exact ⟨_, rfl⟩
  next hnone => simp at hnone

theorem footnoteLine_decreasing (d : Docs) (id : BlockId) :
    (d.footnoteLine id).Pairwise (· > ·) ∧
    ∀ other ∈ d.footnoteLine id, other ≤ id := by
  induction id using Nat.strongRecOn with
  | _ id ih =>
      unfold footnoteLine
      split
      · split
        next hlt =>
          obtain ⟨horder, hle⟩ := ih _ hlt
          have hbelow : ∀ other ∈ d.footnoteLine _, other < id :=
            fun other hother => Nat.lt_of_le_of_lt (hle other hother) hlt
          refine ⟨List.pairwise_cons.2 ⟨hbelow, horder⟩, ?_⟩
          intro other hother
          rcases List.mem_cons.1 hother with rfl | hother
          · exact Nat.le_refl _
          · exact Nat.le_of_lt (hbelow other hother)
        next => simp
      · simp
      · simp

end Docs

namespace Catalog

theorem isId_wantedId (c : Catalog) (id : ItemId) :
    Xml.isId (c.wantedId id) = true := by
  have hkind (init : Value) : Xml.isId (c.variableIdPrefix id init) = true := by
    unfold variableIdPrefix
    split <;> first | decide | (split <;> decide)
  unfold wantedId
  split
  · rw [Xml.isId_append, Xml.isId_idText, Bool.and_true]
    unfold itemIdPrefix
    split
    · decide
    · exact hkind _
    · split
      · split
        · decide
        · exact hkind _
      · exact hkind _
  · rfl

theorem isId_blockIdWanted (c : Catalog) (block : Block) (parent : Option Bytes)
    (hparent : ∀ id, parent = some id → Xml.isId id = true) :
    Xml.isId (c.blockIdWanted block parent) = true := by
  unfold blockIdWanted
  split
  · rw [Xml.isId_append, Xml.isId_idText]
    decide
  next id _ =>
    rw [Xml.isId_append, hparent id rfl]
    decide
  · cases block.item with
    | none => rfl
    | some item => exact c.isId_wantedId item

theorem block?_giveRefId (c : Catalog) (block other : BlockId) (wanted : Bytes) :
    (c.giveRefId block wanted).2.docs.block? other =
      if block = other then
        (c.docs.block? other).map fun b =>
          { b with refId := some (c.giveRefId block wanted).1 }
      else c.docs.block? other := by
  have hrest := (c.docs.freshId_fresh wanted).rest
  have hsame : (c.docs.freshId wanted).2.block? other = c.docs.block? other := by
    rw [hrest]
    rfl
  change ((c.docs.freshId wanted).2.modifyBlock block _).block? other = _
  rw [Docs.block?_modifyBlock, hsame]
  rfl

theorem block?_lineRefId (line : List BlockId) (c : Catalog) {other : BlockId}
    (h : other ∉ line) :
    (c.lineRefId line).2.docs.block? other = c.docs.block? other := by
  induction line generalizing c with
  | nil => rfl
  | cons id parents ih =>
      simp only [List.mem_cons, not_or] at h
      unfold lineRefId
      split
      · rfl
      · split
        · rfl
        · split
          · rw [block?_giveRefId, if_neg (Ne.symm h.1)]
          · dsimp only
            rw [block?_giveRefId, if_neg (Ne.symm h.1), ih c h.2]

/-- The first block of a line has the id that comes out. -/
theorem renders_lineRefId (line : List BlockId) (c : Catalog)
    (hc : c.Consistent) (horder : line.Pairwise (· > ·)) :
    c.Renders (c.lineRefId line).2 ∧ Xml.isId (c.lineRefId line).1 = true ∧
      ∀ id b, line.head? = some id → c.docs.block? id = some b →
        ∃ b', (c.lineRefId line).2.docs.block? id = some b' ∧
        b'.refId = some (c.lineRefId line).1 := by
  have hgive {c' : Catalog} {id : BlockId} {b : Block} (hc' : c'.Consistent)
      (hb : c'.docs.block? id = some b)
      (hnone : b.refId = none) {wanted : Bytes}
      (hwanted : Xml.isId wanted = true) :
      c'.Renders (c'.giveRefId id wanted).2 ∧
        Xml.isId (c'.giveRefId id wanted).1 = true ∧
        ∃ b', (c'.giveRefId id wanted).2.docs.block? id = some b' ∧
        b'.refId = some (c'.giveRefId id wanted).1 := by
    refine ⟨.single (.refId hb hnone hwanted),
      (c'.docs.freshId_fresh wanted).isId hwanted, ?_⟩
    rw [block?_giveRefId, if_pos rfl, hb]
    exact ⟨_, rfl, rfl⟩
  induction line with
  | nil => exact ⟨.refl c, rfl, by simp⟩
  | cons id parents ih =>
      obtain ⟨hbelow, horder⟩ := List.pairwise_cons.1 horder
      obtain ⟨hrenders, hisId, -⟩ := ih horder
      unfold lineRefId
      split
      next hnone =>
        refine ⟨.refl c, rfl, ?_⟩
        intro other b hother hb
        obtain rfl : id = other := by simpa using hother
        simp [hnone] at hb
      next b hb =>
        split
        next refId hrefId =>
          have hused :=
            hc.docs.numbered.used id b.links refId
              (Docs.links?_of_block? hb) hrefId
          refine ⟨.refl c, hused.2.1, ?_⟩
          intro other b' hother hb'
          obtain rfl : id = other := by simpa using hother
          exact ⟨b, hb, hrefId⟩
        next hrefId =>
          split
          · obtain ⟨hrenders', hisId', hgiven⟩ :=
              hgive hc hb hrefId (c.isId_blockIdWanted b none (by simp))
            refine ⟨hrenders', hisId', ?_⟩
            intro other b' hother _
            obtain rfl : id = other := by simpa using hother
            exact hgiven
          -- The ids of the parents come first.  They are older blocks, so that
          -- this one is still as it was.
          · have hnotin : id ∉ parents :=
              fun hmem => Nat.lt_irrefl _ (hbelow id hmem)
            have hb' := (block?_lineRefId parents c hnotin).trans hb
            have hwanted :
                Xml.isId ((c.lineRefId parents).2.blockIdWanted b
                  (some (c.lineRefId parents).1)) = true := by
              apply isId_blockIdWanted
              intro parent hparent
              rw [← Option.some.inj hparent]
              exact hisId
            obtain ⟨hrenders', hisId', hgiven⟩ :=
              hgive (hrenders.consistent hc) hb' hrefId hwanted
            refine ⟨hrenders.trans hrenders', hisId', ?_⟩
            intro other b' hother _
            obtain rfl : id = other := by simpa using hother
            exact hgiven

end Catalog

namespace Page

theorem yields_itemBlockOf {c : Catalog} {item : ItemId}
    (hitem : item < c.declarations.items.size) :
    Yields (itemBlockOf item) c fun block c' =>
      c'.docs.blockOf? item = some block := by
  intro _
  refine ⟨.single (.demand hitem), ?_⟩
  change (c.itemBlock item).2.docs.blockOf? item = some (c.itemBlock item).1
  rcases c.itemBlock_cases item with ⟨block, hblock, heq⟩ | ⟨-, file, pos, heq⟩
  · rw [heq]
    exact hblock
  · rw [heq]
    exact ((c.docs.addBlock file pos).blockOf?_attach item item _).trans
      (if_pos rfl)

theorem yields_refIdOf {c : Catalog} {entity : Entity} {block : BlockId}
    {b : Block} (hown : c.ownBlock? entity = some block)
    (hb : c.docs.block? block = some b) :
    Yields (refIdOf block) c fun refId c' => c'.refIdOf? entity = some refId := by
  intro hc
  obtain ⟨horder, -⟩ := c.docs.footnoteLine_decreasing block
  obtain ⟨hrenders, -, hgiven⟩ :=
    c.renders_lineRefId (c.docs.footnoteLine block) hc horder
  obtain ⟨parents, hline⟩ := Docs.footnoteLine_head hb
  obtain ⟨b', hb', hrefId⟩ := hgiven block b (by simp [hline]) hb
  have hglobal : entity ≠ .global := by
    rintro rfl
    simp [Catalog.ownBlock?] at hown
  refine ⟨hrenders, ?_⟩
  change (c.lineRefId (c.docs.footnoteLine block)).2.refIdOf? entity = some _
  rw [Catalog.refIdOf?_eq _ hglobal, hrenders.refines.ownBlock? hown,
    Option.bind_some, hb']
  exact hrefId

end Page

end LuaGloss

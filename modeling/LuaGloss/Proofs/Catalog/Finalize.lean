import LuaGloss.Proofs.Catalog.Step

/-!
# The final state is reached step by step

When all sources have been read, queued names are bound, items are put into
groups, and groups without content are deleted.  All of this happens in steps.
-/

namespace LuaGloss

namespace Catalog

theorem lt_size_of_isRendered {c : Catalog} {id : ItemId}
    (h : c.isRendered id = true) : id < c.declarations.items.size := by
  by_contra hge
  have hnone : c.declarations.item? id = none := by
    simpa [Declarations.item?] using hge
  unfold isRendered Declarations.lineage at h
  rw [hnone] at h
  simp [isLineRendered] at h

variable (c : Catalog)

theorem declarations_resolveOne (reference : Reference) :
    (c.resolveOne reference).declarations = c.declarations := by
  unfold resolveOne
  split
  · rfl
  · exact c.declarations_bindTarget _ _ _
  · rfl

/-- What is collected on the way is what means nothing in the beginning. -/
theorem foldl_resolveNext (queue : List Reference) (c : Catalog)
    (unresolved : List Reference) :
    queue.foldl resolveNext (c, unresolved) =
      (queue.foldl resolveOne c,
        unresolved ++ queue.filter fun reference =>
          (c.referent? reference).isNone) := by
  induction queue generalizing c unresolved with
  | nil => simp
  | cons reference queue ih =>
      have hmeans (other : Reference) :
          (c.resolveOne reference).referent? other = c.referent? other := by
        unfold referent?
        rw [declarations_resolveOne]
      rw [List.foldl_cons, resolveNext, ih, List.foldl_cons, List.filter_cons]
      simp only [hmeans]
      split <;> simp

theorem resolve_eq :
    c.resolve = (c.docs.queue.foldl resolveOne c).mapDocs fun d =>
      { d with
        queue := []
        unresolved := c.docs.queue.filter fun reference =>
          (c.referent? reference).isNone } := by
  rw [resolve, foldl_resolveNext, List.nil_append]

theorem step_resolveOne {c : Catalog} (hc : c.Consistent) (reference : Reference) :
    c.Step (c.resolveOne reference) := by
  unfold resolveOne
  split
  next item entry hitem _ =>
    refine .modifyBlock c _ (fun _ => rfl) fun b => ?_
    exact { Block.Continues.refl b with seeAlso := by simp }
  next item hitem _ => exact .bind _ _ (hc.declarations.findOverload_lt hitem)
  next => exact .warn _ _ _ _

theorem reaches_resolve {c : Catalog} (hc : c.Consistent) :
    c.Reaches c.resolve := by
  have hfold (queue : List Reference) : ∀ c' : Catalog, c'.Consistent →
      c'.Reaches (queue.foldl resolveOne c') := by
    induction queue with
    | nil => exact fun c' _ => .refl c'
    | cons reference queue ih =>
        intro c' hc'
        have hone := step_resolveOne hc' reference
        exact (Reaches.single hone).trans (ih _ (hone.consistent hc'))
  rw [resolve_eq]
  apply (hfold c.docs.queue c hc).tail
  exact .edit ⟨fun _ => rfl, fun _ => rfl, rfl, rfl, .refl _⟩
    (.of_blocks Block.Continues.refl rfl)

theorem reaches_assignBlock (docs : Docs) (id : BlockId) :
    Reaches { c with docs } { c with docs := c.assignBlock docs id } := by
  unfold assignBlock
  split
  · split
    · split
      next hrendered =>
        have hlt := lt_size_of_isRendered hrendered
        exact .single (.collect _ hlt)
      next => exact .refl _
    · exact .refl _
  · exact .refl _

theorem reaches_assignGroups : c.Reaches c.assignGroups := by
  have hfold (blocks : List BlockId) :
      ∀ docs : Docs,
        Reaches { c with docs }
          { c with docs := blocks.foldl c.assignBlock docs } := by
    induction blocks with
    | nil => exact fun docs => .refl _
    | cons id blocks ih =>
        intro docs
        exact (reaches_assignBlock c docs id).trans (ih _)
  refine (hfold c.docs.listedBlocks c.docs).tail (.edit ?_ ?_)
  · exact Docs.Agrees.isRegrouping.foldl Docs.Agrees.isRegrouping.linkGroup _ _
  · have hregrouping := Docs.SameBlocks.isRegrouping
    exact .of_blocks Block.Continues.refl
      (hregrouping.foldl hregrouping.linkGroup _ _).blocks

theorem sameBlocks_assignGroups : c.docs.SameBlocks c.assignGroups.docs := by
  have hregrouping := Docs.SameBlocks.isRegrouping
  have hblock (d : Docs) (id : BlockId) : d.SameBlocks (c.assignBlock d id) := by
    unfold assignBlock
    repeat' split
    all_goals exact ⟨rfl, rfl⟩
  exact (hregrouping.foldl hblock _ _).trans
    (hregrouping.foldl hregrouping.linkGroup _ _)

theorem step_markFinal :
    c.Step (c.mapDocs fun d => { d with isFinal := true }) :=
  .edit ⟨fun _ => rfl, fun _ => rfl, rfl, rfl, .refl _⟩
    (.of_blocks Block.Continues.refl rfl)

theorem reaches_finalize {c : Catalog} (hc : c.Consistent) :
    c.Reaches c.finalize := by
  unfold finalize
  split
  · exact .refl c
  · have hmarked := step_markFinal c
    have hresolved :=
      (Reaches.single hmarked).trans (reaches_resolve (hmarked.consistent hc))
    refine (hresolved.trans (reaches_assignGroups _)).tail
      (.edit (.pruneGroups _) ?_)
    exact .of_blocks Block.Continues.refl
      (Docs.SameBlocks.isRegrouping.pruneGroups _).blocks

end Catalog

end LuaGloss

import LuaGloss.Proofs.Run.References
import LuaGloss.Proofs.Source.Membership

/-!
# Every queued name is accounted for

When all sources have been read, the names in the queue are looked up one after
the other.  What becomes of a name depends on those before it: an item may have
got its documentation from one of them, and a block may have been attached to
another item.  The pass is described by its lookups, which are the names in
their order, each together with the state in which it is looked up.

A name that means nothing is reported and kept.  Any other is bound, unless it
names an item that is documented already or stands in a block that documents
something already, which is reported too.  Nothing else is reported.
-/

namespace LuaGloss

/-- Whether a warning says that a block could not be attached to the item that
it names. -/
def Warning.isConflict : Warning → Bool
  | .blockAlreadyAttached _ | .itemAlreadyDocumented _ => true
  | _ => false

namespace Docs

/-- A name stands in a block, and if it is one of the block's references then
under its own name. -/
def Holds (d : Docs) (reference : Reference) : Prop :=
  reference.block < d.blocks.size ∧ ∀ k, reference.entry = some k →
    reference.overload = 0 ∧ ∃ item, (d.seeAlso reference.block)[k]? =
      some ⟨reference.name, item⟩

def Queued (d : Docs) : Prop := ∀ reference ∈ d.queue, d.Holds reference

end Docs

namespace Catalog

/-- Why a block cannot become the documentation of the item that it names. -/
def conflict? (c : Catalog) (block : BlockId) (item : ItemId) (name : Bytes) :
    Option Warning :=
  if c.docs.blockOf? item = some block then none
  else if ((c.docs.block? block).bind (·.item)).isSome then
    some (.blockAlreadyAttached name)
  else if (c.blockOf? item).any (!·.isEmpty) then
    some (.itemAlreadyDocumented name)
  else none

/-- What there is to object to a queued name. -/
def objection? (c : Catalog) (reference : Reference) : Option Warning :=
  match c.referent? reference with
  | none =>
    some (.unresolvedReference reference.command reference.name reference.overload)
  | some item =>
    if reference.entry.isSome then none
      else c.conflict? reference.block item reference.name

/-- The objection as it is reported, at the place of the block. -/
def complaint? (c : Catalog) (reference : Reference) : Option Notice :=
  (c.docs.block? reference.block).bind fun b =>
    (c.objection? reference).map (.warning b.file b.pos)

/-- The names of a queue, each with the state in which it is looked up. -/
def lookups (c : Catalog) : List Reference → List (Catalog × Reference)
  | [] => []
  | reference :: queue => (c, reference) :: (c.resolveOne reference).lookups queue

/-! ## One lookup -/

/-- What a lookup can come to. -/
inductive Lookup (c : Catalog) (reference : Reference) : Catalog → Prop
  | refused {b : Block} {what : Warning} :
      c.docs.block? reference.block = some b →
      c.objection? reference = some what →
      Lookup c reference (c.warn b.file b.pos what)
  | entry {item : ItemId} {k : Nat} :
      c.objection? reference = none → c.referent? reference = some item →
      reference.entry = some k →
      Lookup c reference (c.bindSeeAlso reference.block k item)
  | attached {item : ItemId} :
      c.objection? reference = none → c.referent? reference = some item →
      reference.entry = none → c.docs.blockOf? item = some reference.block →
      Lookup c reference c
  | attach {item : ItemId} :
      c.objection? reference = none → c.referent? reference = some item →
      reference.entry = none → (c.blockOf? item).any (!·.isEmpty) = false →
      Lookup c reference (c.attach item reference.block)

theorem lookup_resolveOne {c : Catalog} {reference : Reference}
    (h : reference.block < c.docs.blocks.size) :
    c.Lookup reference (c.resolveOne reference) := by
  have hb : c.docs.block? reference.block =
      some c.docs.blocks[reference.block] := Array.getElem?_eq_getElem h
  unfold resolveOne
  split
  next item k hitem hk => exact .entry (by simp [objection?, hitem, hk]) hitem hk
  next item hitem hk =>
    have hobjection : c.objection? reference =
        c.conflict? reference.block item reference.name := by
      simp [objection?, hitem, hk]
    unfold bindTarget
    rw [hb]
    dsimp only
    by_cases hsame : c.docs.blockOf? item = some reference.block
    · rw [if_pos hsame]
      exact .attached (by simp [hobjection, conflict?, hsame]) hitem hk hsame
    · rw [if_neg hsame]
      by_cases hbusy : c.docs.blocks[reference.block].item.isSome
      · rw [if_pos hbusy]
        exact .refused hb (by simp [hobjection, conflict?, hsame, hb, hbusy])
      · rw [if_neg hbusy]
        by_cases hfilled : (c.blockOf? item).any (!·.isEmpty)
        · rw [if_pos hfilled]
          exact .refused hb
            (by simp [hobjection, conflict?, hsame, hb, hbusy, hfilled])
        · rw [if_neg hfilled]
          exact .attach
            (by simp [hobjection, conflict?, hsame, hb, hbusy, hfilled]) hitem
            hk (by simpa using hfilled)
  next hitem =>
    rw [hb]
    exact .refused hb (by simp [objection?, hitem])

namespace Lookup

variable {c c' : Catalog} {reference : Reference} (h : c.Lookup reference c')

include h

theorem declarations : c'.declarations = c.declarations := by
  cases h <;> rfl

theorem size : c'.docs.blocks.size = c.docs.blocks.size := by
  cases h with
  | refused _ _ => rfl
  | entry _ _ _ => exact Array.size_modify
  | attached _ _ _ _ => rfl
  | attach _ _ _ _ => exact Array.size_modify

theorem warnings :
    c'.docs.warnings = c.docs.warnings +
      (c.objection? reference).toList.length := by
  cases h with
  | refused _ hwhat =>
      rw [hwhat]
      rfl
  | entry hnone =>
      simp [hnone, bindSeeAlso, modifyBlock, mapDocs, Docs.modifyBlock]
  | attached hnone => simp [hnone]
  | attach hnone =>
      simp [hnone, Catalog.attach, mapDocs, Docs.attach, Docs.modifyBlock]

theorem notices :
    c'.docs.notices.toList = c.docs.notices.toList ++
      (c.complaint? reference).toList := by
  cases h with
  | refused hb hwhat =>
      simp [complaint?, hb, hwhat, warn, mapDocs, Docs.warn, Docs.note]
  | entry hnone =>
      simp [complaint?, hnone, bindSeeAlso, modifyBlock, mapDocs, Docs.modifyBlock]
  | attached hnone => simp [complaint?, hnone]
  | attach hnone =>
      simp [complaint?, hnone, Catalog.attach, mapDocs, Docs.attach,
        Docs.modifyBlock]

theorem isEmpty (id : BlockId) :
    (c'.docs.block? id).map Block.isEmpty =
      (c.docs.block? id).map Block.isEmpty := by
  have hmodify (block : BlockId) (f : Block → Block)
      (hf : ∀ b, (f b).isEmpty = b.isEmpty) :
      ((c.docs.modifyBlock block f).block? id).map Block.isEmpty =
        (c.docs.block? id).map Block.isEmpty := by
    rw [Docs.block?_modifyBlock]
    split
    · rw [Option.map_map]
      congr 1
      exact funext hf
    · rfl
  cases h with
  | refused _ _ => rfl
  | entry _ _ _ =>
      apply hmodify
      intro b
      have hlisted (k : Nat) (f : SeeAlso → SeeAlso) :
          (b.seeAlso.modify k f).isEmpty = b.seeAlso.isEmpty := by
        cases b.seeAlso <;> cases k <;> rfl
      simp [Block.isEmpty, Block.isDescriptionEmpty, hlisted]
  | attached _ _ _ _ => rfl
  | attach _ _ _ _ => exact hmodify _ _ fun _ => rfl

/-- The references of a block keep their names, and one that is bound to what
its name means stays so. -/
theorem seeAlso (block : BlockId) (k : Nat) {see : SeeAlso}
    (hsee : (c.docs.seeAlso block)[k]? = some see) :
    ∃ see', (c'.docs.seeAlso block)[k]? = some see' ∧ see'.name = see.name ∧
      (see' = see ∨ reference.block = block ∧ reference.entry = some k ∧
        see'.item = c.referent? reference) := by
  cases h with
  | refused _ _ => exact ⟨see, hsee, rfl, .inl rfl⟩
  | @entry item entry _ hitem hentry =>
      rw [seeAlso_bindSeeAlso, hsee]
      split
      next hplace =>
        exact ⟨_, rfl, rfl, .inr ⟨hplace.1, by rw [hentry, hplace.2], hitem.symm⟩⟩
      next => exact ⟨see, rfl, rfl, .inl rfl⟩
  | attached _ _ _ _ => exact ⟨see, hsee, rfl, .inl rfl⟩
  | @attach item _ _ _ _ =>
      have hsame : (c.attach item reference.block).docs.seeAlso block =
          c.docs.seeAlso block :=
        c.docs.seeAlso_modifyBlock reference.block (f := fun b =>
          { b with item := some item }) (fun _ => rfl) block
      exact ⟨see, (congrArg (·[k]?) hsame).trans hsee, rfl, .inl rfl⟩

/-- An item keeps a block that says something. -/
theorem blockOf? {item : ItemId}
    (hitem : (c.blockOf? item).any (!·.isEmpty) = true) :
    c'.docs.blockOf? item = c.docs.blockOf? item := by
  cases h with
  | refused _ _ => rfl
  | entry _ _ _ => rfl
  | attached _ _ _ _ => rfl
  | @attach target _ _ _ hempty =>
      have hother : item ≠ target := by
        rintro rfl
        simp [hitem] at hempty
      exact (c.docs.blockOf?_attach target item _).trans (if_neg hother)

theorem holds {other : Reference} (hother : c.docs.Holds other) :
    c'.docs.Holds other := by
  refine ⟨h.size ▸ hother.1, ?_⟩
  intro k hk
  obtain ⟨hzero, item, hsee⟩ := hother.2 k hk
  obtain ⟨see', hsee', hname, -⟩ := h.seeAlso other.block k hsee
  exact ⟨hzero, see'.item,
    hsee'.trans (congrArg (fun name => some (SeeAlso.mk name see'.item)) hname)⟩

theorem referent? : c'.referent? = c.referent? := by
  funext other
  unfold Catalog.referent?
  rw [h.declarations]

end Lookup

theorem isConflict_of_conflict? {c : Catalog} {block : BlockId} {item : ItemId}
    {name : Bytes} {what : Warning}
    (h : c.conflict? block item name = some what) : what.isConflict = true := by
  unfold conflict? at h
  split at h
  · cases h
  · split at h
    · cases h
      rfl
    · split at h
      · cases h
        rfl
      · cases h

/-- A name that means something meets a conflict or no objection. -/
theorem isConflict_of_objection? {c : Catalog} {reference : Reference}
    {item : ItemId} {what : Warning} (hitem : c.referent? reference = some item)
    (h : c.objection? reference = some what) : what.isConflict = true := by
  unfold objection? at h
  rw [hitem] at h
  dsimp only at h
  split at h
  · cases h
  · exact isConflict_of_conflict? h

/-- What is objected to a name: that it means nothing, or else a conflict. -/
theorem length_objection? (c : Catalog) (reference : Reference) :
    (c.objection? reference).toList.length =
      (if (c.referent? reference).isNone then 1 else 0) +
        if (c.objection? reference).any Warning.isConflict then 1 else 0 := by
  cases hitem : c.referent? reference with
  | none => simp [objection?, hitem, Warning.isConflict]
  | some item =>
      cases hwhat : c.objection? reference with
      | none => rfl
      | some what => simp [isConflict_of_objection? hitem hwhat]

/-! ## The whole queue -/

/-- A pass over a queue, as its lookups. -/
inductive Pass : Catalog → List (Catalog × Reference) → Catalog → Prop
  | nil (c : Catalog) : Pass c [] c
  | cons {c c' final : Catalog} {reference : Reference}
      {lookups : List (Catalog × Reference)} :
      c.docs.Holds reference → c.Lookup reference c' → Pass c' lookups final →
      Pass c ((c, reference) :: lookups) final

theorem pass_lookups {queue : List Reference} {c : Catalog}
    (hall : ∀ reference ∈ queue, c.docs.Holds reference) :
    c.Pass (c.lookups queue) (queue.foldl resolveOne c) := by
  induction queue generalizing c with
  | nil => exact .nil c
  | cons reference queue ih =>
      obtain ⟨hfirst, hrest⟩ := List.forall_mem_cons.1 hall
      have hlookup := lookup_resolveOne hfirst.1
      exact .cons hfirst hlookup (ih fun other hother =>
        hlookup.holds (hrest other hother))

theorem lookups_snd (c : Catalog) (queue : List Reference) :
    (c.lookups queue).map Prod.snd = queue := by
  induction queue generalizing c with
  | nil => rfl
  | cons reference queue ih => simp [lookups, ih]

namespace Pass

variable {c final : Catalog} {lookups : List (Catalog × Reference)}
  (h : c.Pass lookups final)

include h

theorem referent? : ∀ lookup ∈ lookups, lookup.1.referent? = c.referent? := by
  induction h with
  | nil => simp
  | cons _ hlookup _ ih =>
      rw [List.forall_mem_cons]
      exact ⟨rfl, fun lookup hmem => (ih lookup hmem).trans hlookup.referent?⟩

theorem notices :
    final.docs.notices.toList =
      c.docs.notices.toList ++ lookups.filterMap fun lookup =>
        lookup.1.complaint? lookup.2 := by
  induction h with
  | nil c => simp
  | @cons c _ _ reference lookups _ hlookup _ ih =>
      rw [ih, hlookup.notices, List.filterMap_cons, List.append_assoc]
      cases c.complaint? reference <;> rfl

theorem warnings :
    final.docs.warnings =
      c.docs.warnings + ((lookups.map Prod.snd).filter fun reference =>
        (c.referent? reference).isNone).length +
        (lookups.filter fun lookup =>
          (lookup.1.objection? lookup.2).any Warning.isConflict).length := by
  induction h with
  | nil => rfl
  | @cons c _ _ reference lookups _ hlookup _ ih =>
      rw [hlookup.referent?, hlookup.warnings, length_objection?] at ih
      simp only [← List.countP_eq_length_filter, List.map_cons,
        List.countP_cons] at ih ⊢
      omega

/-- A bound reference stays bound, because whoever waits for the same entry
waits for the same name. -/
theorem seeAlso {block : BlockId} {k : Nat} {name : Bytes} {item : ItemId}
    (hmeans : c.declarations.find name = some item)
    (hsee : (c.docs.seeAlso block)[k]? = some ⟨name, some item⟩) :
    (final.docs.seeAlso block)[k]? = some ⟨name, some item⟩ := by
  induction h with
  | nil => exact hsee
  | @cons c _ _ reference _ hholds hlookup _ ih =>
      refine ih (hlookup.declarations ▸ hmeans) ?_
      obtain ⟨see', hsee', hname, rfl | ⟨rfl, hentry, hitem⟩⟩ :=
        hlookup.seeAlso block k hsee
      · exact hsee'
      · obtain ⟨hzero, item', hentry'⟩ := hholds.2 k hentry
        obtain ⟨rfl, -⟩ : name = reference.name ∧ some item = item' := by
          simpa using hsee.symm.trans hentry'
        have hreferent : c.referent? reference = some item := by
          unfold Catalog.referent?
          rw [hzero]
          exact hmeans
        rw [hsee']
        exact congrArg₂ (fun name item => some (SeeAlso.mk name item)) hname
          (hitem.trans hreferent)

theorem blockOf? {item : ItemId} {block : BlockId}
    (hblock : c.docs.blockOf? item = some block)
    (hfilled : (c.docs.block? block).map Block.isEmpty = some false) :
    final.docs.blockOf? item = some block := by
  induction h with
  | nil => exact hblock
  | @cons c _ _ _ _ _ hlookup _ ih =>
      obtain ⟨b, hb, hnonempty⟩ := Option.map_eq_some_iff.1 hfilled
      have hkept : _ = c.docs.blockOf? item :=
        hlookup.blockOf? (by simp [Catalog.blockOf?, hblock, hb, hnonempty])
      exact ih (hkept.trans hblock) ((hlookup.isEmpty block).trans hfilled)

/-- Every reference whose name means something is bound in the end. -/
theorem entry {lookup : Catalog × Reference} (hmem : lookup ∈ lookups)
    {item : ItemId} {k : Nat} (hitem : c.referent? lookup.2 = some item)
    (hentry : lookup.2.entry = some k) :
    (final.docs.seeAlso lookup.2.block)[k]? = some ⟨lookup.2.name, some item⟩ := by
  induction h with
  | nil => cases hmem
  | @cons c c' _ reference _ hholds hlookup hpass ih =>
      rcases List.mem_cons.1 hmem with rfl | hmem
      · dsimp only at hitem hentry ⊢
        obtain ⟨hzero, old, hold⟩ := hholds.2 k hentry
        have hmeans : c.declarations.find reference.name = some item := by
          unfold Catalog.referent? at hitem
          rw [hzero] at hitem
          exact hitem
        refine hpass.seeAlso (hlookup.declarations ▸ hmeans) ?_
        cases hlookup with
        | refused _ hwhat =>
            -- An entry meets no objection but that its name means nothing.
            simp [objection?, hitem, hentry] at hwhat
        | entry _ hitem' hentry' =>
            obtain rfl : item = _ := Option.some.inj (hitem.symm.trans hitem')
            obtain rfl : k = _ := Option.some.inj (hentry.symm.trans hentry')
            rw [seeAlso_bindSeeAlso, hold]
            simp
        | attached _ _ hnone _ => exact absurd (hentry.symm.trans hnone) nofun
        | attach _ _ hnone _ => exact absurd (hentry.symm.trans hnone) nofun
      · exact ih hmem (hlookup.referent? ▸ hitem)

/-- Every item that a block says something about has that block in the end, if
there was no objection. -/
theorem target {lookup : Catalog × Reference} (hmem : lookup ∈ lookups)
    {item : ItemId} (hitem : c.referent? lookup.2 = some item)
    (hentry : lookup.2.entry = none)
    (hfree : lookup.1.objection? lookup.2 = none)
    (hfilled : (c.docs.block? lookup.2.block).map Block.isEmpty = some false) :
    final.docs.blockOf? item = some lookup.2.block := by
  induction h with
  | nil => cases hmem
  | @cons c c' _ reference _ hholds hlookup hpass ih =>
      rcases List.mem_cons.1 hmem with rfl | hmem
      · refine hpass.blockOf? ?_ ((hlookup.isEmpty _).trans hfilled)
        cases hlookup with
        | refused _ hwhat => exact absurd (hwhat.symm.trans hfree) nofun
        | entry _ _ hsome => exact absurd (hentry.symm.trans hsome) nofun
        | attached _ hitem' _ hblock =>
            obtain rfl : item = _ := Option.some.inj (hitem.symm.trans hitem')
            exact hblock
        | attach _ hitem' _ _ =>
            obtain rfl : item = _ := Option.some.inj (hitem.symm.trans hitem')
            exact (c.docs.blockOf?_attach item item _).trans (if_pos rfl)
      · exact ih hmem (hlookup.referent? ▸ hitem)
          ((hlookup.isEmpty _).trans hfilled)

end Pass

/-- Looking the queue up leaves nothing unaccounted for.  The queue is emptied,
and what means nothing is kept in the order of the queue.  Every other reference
is bound to what its name means, and every other block is the documentation of
the item that it names, unless it says nothing or met a conflict in the state in
which it was looked up.  One warning is given for each name that means nothing
and for each conflict, and nothing else is reported. -/
theorem resolve_accounts_for_queue (c : Catalog) (hqueue : c.docs.Queued) :
    let final := c.resolve
    let lookups := c.lookups c.docs.queue
    let conflicts :=
  lookups.filter fun lookup =>
  (lookup.1.objection? lookup.2).any Warning.isConflict
    lookups.map Prod.snd = c.docs.queue ∧
      final.docs.queue = [] ∧
      final.docs.unresolved =
        c.docs.queue.filter (fun reference => (c.referent? reference).isNone) ∧
      (∀ reference ∈ c.docs.queue, ∀ item k, c.referent? reference = some item →
        reference.entry = some k →
        (final.docs.seeAlso reference.block)[k]? =
          some ⟨reference.name, some item⟩) ∧
      (∀ lookup ∈ lookups, ∀ item, c.referent? lookup.2 = some item →
        lookup.2.entry = none →
        final.docs.blockOf? item = some lookup.2.block ∨
          (c.docs.block? lookup.2.block).any Block.isEmpty = true ∨
          lookup ∈ conflicts) ∧
      final.docs.warnings = c.docs.warnings + final.docs.unresolved.length +
        conflicts.length ∧
      final.docs.notices.toList =
        c.docs.notices.toList ++ lookups.filterMap fun lookup =>
          lookup.1.complaint? lookup.2 := by
  have hpass := pass_lookups hqueue
  have hsnd := c.lookups_snd c.docs.queue
  rw [resolve_eq]
  refine ⟨hsnd, rfl, rfl, ?_, ?_, ?_, hpass.notices⟩
  · intro reference hreference item k hitem hentry
    rw [← hsnd] at hreference
    obtain ⟨lookup, hmem, rfl⟩ := List.mem_map.1 hreference
    exact hpass.entry hmem hitem hentry
  · intro lookup hmem item hitem hentry
    rw [List.mem_filter]
    cases hwhat : lookup.1.objection? lookup.2 with
    | some what =>
        have hmeans :=
          (congrFun (hpass.referent? lookup hmem) lookup.2).trans hitem
        exact .inr (.inr ⟨hmem, by simp [isConflict_of_objection? hmeans hwhat]⟩)
    | none =>
        have hlt := (hqueue lookup.2 (hsnd ▸ List.mem_map_of_mem hmem)).1
        have hb : c.docs.block? lookup.2.block =
            some c.docs.blocks[lookup.2.block] := Array.getElem?_eq_getElem hlt
        cases hempty : c.docs.blocks[lookup.2.block].isEmpty with
        | true => exact .inr (.inl (by simp [hb, hempty]))
        | false =>
            exact .inl
              (hpass.target hmem hitem hentry hwhat (by simp [hb, hempty]))
  · have hcount := hpass.warnings
    rw [hsnd] at hcount
    exact hcount

end Catalog

namespace Run

theorem queued_readAll (settings : Settings) (vocabulary : Vocabulary)
    (language : Bytes) (sources : List SourceText) :
    ((fresh settings vocabulary language).readAll
      sources).catalog.docs.Queued := by
  have htidy := tidy_readAll settings vocabulary language sources
  have hsound :=
    (unfolds_readAll (fresh settings vocabulary language) sources).sound
      (sound_fresh _ _ _)
  intro reference hreference
  refine ⟨htidy.queue reference hreference, ?_⟩
  intro k hentry
  obtain ⟨hzero, hsee⟩ :=
    hsound.docs.refers.awaited reference
      (List.mem_filter.2 ⟨hreference, by simp [hentry]⟩) k hentry
  exact ⟨hzero, none, hsee⟩

/-- Two blocks name the same item, and a third one refers to it and to something
that does not exist. -/
private def queuedSources : List SourceText :=
  [⟨utf8 "a.lua",
    utf8 "--! a\n--! \\variable z\n\n--! b\n--! \\variable z\n\n" ++
      utf8 "--! \\see z w\nx = 1\nz = 1\n"⟩]

private def queuedRun : Run :=
  (fresh .default .default (utf8 "Lua")).readAll queuedSources

/-- Of four names in the queue two are bound, one means nothing and one meets a
conflict. -/
theorem resolve_accounts_for_queue_sample :
    (queuedRun.catalog.docs.Queued ∧
      queuedRun.catalog.docs.queue =
        [⟨0, .variable_, utf8 "z", 0, none⟩, ⟨1, .variable_, utf8 "z", 0, none⟩,
          ⟨2, .see, utf8 "z", 0, some 0⟩,
          ⟨2, .see, utf8 "w", 0, some 1⟩]) ∧
    queuedRun.catalog.resolve.docs.unresolved = [⟨2, .see, utf8 "w", 0, some 1⟩] ∧
      (queuedRun.catalog.resolve.docs.seeAlso 2)[0]? = some ⟨utf8 "z", some 1⟩ ∧
      queuedRun.catalog.resolve.docs.warnings = 2 := by
  have hqueued : queuedRun.catalog.docs.Queued := queued_readAll _ _ _ _
  have hqueue : queuedRun.catalog.docs.queue =
      [⟨0, .variable_, utf8 "z", 0, none⟩, ⟨1, .variable_, utf8 "z", 0, none⟩,
        ⟨2, .see, utf8 "z", 0, some 0⟩,
        ⟨2, .see, utf8 "w", 0, some 1⟩] := by
    decide +kernel
  obtain ⟨-, -, hunresolved, hbound, -, hwarnings, -⟩ :=
    Catalog.resolve_accounts_for_queue queuedRun.catalog hqueued
  have hleft : queuedRun.catalog.resolve.docs.unresolved =
      [⟨2, .see, utf8 "w", 0, some 1⟩] :=
    hunresolved.trans (by decide +kernel)
  refine ⟨⟨hqueued, hqueue⟩, hleft, ?_, ?_⟩
  · exact hbound ⟨2, .see, utf8 "z", 0, some 0⟩ (by simp [hqueue]) 1 0
      (by decide +kernel) rfl
  · rw [hwarnings, hleft]
    decide +kernel

end Run

end LuaGloss

import LuaGloss.Proofs.Run.Steps
import LuaGloss.Proofs.Source.Events

/-!
# Immediate and deferred references agree

A reference in a comment is bound when the comment is read, if its name means
something then, and else when all sources have been read.  Because names keep
their meaning, both come to the same: in the end every reference is bound to
what its name means then, and those that mean nothing are listed as unresolved.
-/

namespace LuaGloss

namespace Catalog

/-! ## Working through the queue -/

/-- Every reference is bound to what its name means, or still to be looked at;
all that are not bound were in the queue. -/
structure Resolving (queue rest : List Reference) (c : Catalog) : Prop where
  entry : ∀ block k see, (c.docs.seeAlso block)[k]? = some see →
    see.item = c.declarations.find see.name ∨ see.item = none ∧
    ⟨block, .see, see.name, 0, some k⟩ ∈ rest
  queued : ∀ block k see, (c.docs.seeAlso block)[k]? = some see → see.item = none →
    ⟨block, .see, see.name, 0, some k⟩ ∈ queue
  rest : ∀ reference ∈ rest, ∀ k, reference.entry = some k →
    reference.overload = 0 ∧ ∀ see, (c.docs.seeAlso reference.block)[k]? =
      some see → see.name = reference.name

theorem seeAlso_bindSeeAlso (c : Catalog) (block other : BlockId)
    (entry k : Nat) (item : ItemId) :
    ((c.bindSeeAlso block entry item).docs.seeAlso other)[k]? =
      if block = other ∧ entry = k then
        ((c.docs.seeAlso other)[k]?).map fun see => { see with item := some item }
      else (c.docs.seeAlso other)[k]? := by
  change ((c.docs.modifyBlock block _).seeAlso other)[k]? = _
  unfold Docs.seeAlso
  rw [Docs.block?_modifyBlock]
  by_cases hblock : block = other
  · cases hb : c.docs.block? other with
    | none => simp
    | some b =>
        by_cases hentry : entry = k <;> simp [hblock, hentry]
  · simp [hblock]

namespace Resolving

variable {queue rest : List Reference} {reference : Reference} {c : Catalog}

theorem of_refers
    (h : c.docs.Refers fun name item => c.declarations.find name = some item) :
    Resolving c.docs.queue c.docs.queue c := by
  have hmem (reference : Reference) (hreference : reference ∈ c.docs.awaited) :
      reference ∈ c.docs.queue :=
    (List.mem_filter.1 hreference).1
  constructor
  · intro block k see hsee
    rcases h.entry block k see hsee with ⟨item, hitem, hmeans⟩ | ⟨hnone, hwaits⟩
    · exact .inl (hitem.trans hmeans.symm)
    · exact .inr ⟨hnone, hmem _ hwaits⟩
  · intro block k see hsee hnone
    rcases h.entry block k see hsee with ⟨item, hitem, -⟩ | ⟨-, hwaits⟩
    · simp [hitem] at hnone
    · exact hmem _ hwaits
  · intro reference hreference k hk
    have hawaited : reference ∈ c.docs.awaited :=
      List.mem_filter.2 ⟨hreference, by simp [hk]⟩
    obtain ⟨hzero, hentry⟩ := h.awaited reference hawaited k hk
    refine ⟨hzero, ?_⟩
    intro see hsee
    obtain rfl := Option.some.inj (hentry.symm.trans hsee)
    rfl

theorem skip (h : Resolving queue (reference :: rest) c) {c' : Catalog}
    (hc' : c.Quiet c')
    (hsettled : ∀ block k see, reference = ⟨block, .see, see, 0, some k⟩ →
      c.declarations.find see = none) :
    Resolving queue rest c' := by
  constructor
  · intro block k see hsee
    rw [hc'.docs.seeAlso] at hsee
    rw [hc'.declarations]
    rcases h.entry block k see hsee with hbound | ⟨hnone, hwaits⟩
    · exact .inl hbound
    · rcases List.mem_cons.1 hwaits with hthis | hlater
      · exact .inl (hnone.trans (hsettled block k see.name hthis.symm).symm)
      · exact .inr ⟨hnone, hlater⟩
  · intro block k see hsee
    rw [hc'.docs.seeAlso] at hsee
    exact h.queued block k see hsee
  · intro other hother k hk
    rw [hc'.docs.seeAlso]
    exact h.rest other (List.mem_cons_of_mem _ hother) k hk

theorem bindSeeAlso (h : Resolving queue (reference :: rest) c) {item : ItemId}
    {entry : Nat} (hitem : c.referent? reference = some item)
    (hentry : reference.entry = some entry) :
    Resolving queue rest (c.bindSeeAlso reference.block entry item) := by
  obtain ⟨hoverload, hname⟩ := h.rest reference List.mem_cons_self entry hentry
  have hmeans : c.declarations.find reference.name = some item := by
    unfold referent? at hitem
    rwa [hoverload] at hitem
  constructor
  · intro block k see hsee
    rw [seeAlso_bindSeeAlso] at hsee
    change see.item = c.declarations.find see.name ∨ _
    split at hsee
    next hplace =>
      obtain ⟨before, hbefore, rfl⟩ := Option.map_eq_some_iff.1 hsee
      obtain ⟨rfl, rfl⟩ := hplace
      left
      rw [hname before hbefore, hmeans]
    next hplace =>
      refine (h.entry block k see hsee).imp_right ?_
      rintro ⟨hnone, hwaits⟩
      refine ⟨hnone, (List.mem_cons.1 hwaits).resolve_left ?_⟩
      intro hthis
      apply hplace
      rw [← hthis] at hentry ⊢
      exact ⟨rfl, (Option.some.inj hentry).symm⟩
  · intro block k see hsee hnone
    rw [seeAlso_bindSeeAlso] at hsee
    split at hsee
    · obtain ⟨before, -, rfl⟩ := Option.map_eq_some_iff.1 hsee
      simp at hnone
    · exact h.queued block k see hsee hnone
  · intro other hother k hk
    obtain ⟨hzero, hnamed⟩ := h.rest other (List.mem_cons_of_mem _ hother) k hk
    refine ⟨hzero, ?_⟩
    intro see hsee
    rw [seeAlso_bindSeeAlso] at hsee
    split at hsee
    · obtain ⟨before, hbefore, rfl⟩ := Option.map_eq_some_iff.1 hsee
      exact hnamed before hbefore
    · exact hnamed see hsee

/-- Looking at a queued name settles it. -/
theorem resolveOne (h : Resolving queue (reference :: rest) c) :
    Resolving queue rest (c.resolveOne reference) := by
  unfold Catalog.resolveOne
  split
  next item entry hitem hentry => exact h.bindSeeAlso hitem hentry
  next item hitem hentry =>
    apply h.skip (.bindTarget c _ item _)
    intro block k name hthis
    rw [hthis] at hentry
    simp at hentry
  next hitem =>
    apply h.skip (.warn c _ _ _)
    intro block k name hthis
    unfold referent? at hitem
    rw [hthis] at hitem
    exact hitem

theorem foldl (rest : List Reference) {c : Catalog} (h : Resolving queue rest c) :
    Resolving queue [] (rest.foldl Catalog.resolveOne c) ∧
      (rest.foldl Catalog.resolveOne c).declarations = c.declarations := by
  induction rest generalizing c with
  | nil => exact ⟨h, rfl⟩
  | cons reference rest ih =>
      obtain ⟨hdone, hdeclarations⟩ := ih h.resolveOne
      exact ⟨hdone, hdeclarations.trans (c.declarations_resolveOne reference)⟩

end Resolving

/-- Every reference is bound to what its name means, and is listed as unresolved
if that is nothing. -/
def Settled (c : Catalog) : Prop :=
  ∀ block k see, (c.docs.seeAlso block)[k]? = some see →
    see.item = c.declarations.find see.name ∧
    (see.item = none ↔ ⟨block, .see, see.name, 0, some k⟩ ∈ c.docs.unresolved)

theorem settled_resolve {c : Catalog}
    (h : c.docs.Refers fun name item => c.declarations.find name = some item) :
    c.resolve.Settled ∧ c.resolve.declarations = c.declarations := by
  obtain ⟨hdone, hdeclarations⟩ := (Resolving.of_refers h).foldl
  rw [resolve_eq]
  refine ⟨fun block k see hsee => ?_, hdeclarations⟩
  have hmeans := congrArg (Declarations.find · see.name) hdeclarations
  have hbound : see.item = c.declarations.find see.name := by
    rcases hdone.entry block k see hsee with hbound | ⟨-, hnone⟩
    · exact hbound.trans hmeans
    · simp at hnone
  refine ⟨hbound.trans hmeans.symm, ?_⟩
  change _ ↔ _ ∈ c.docs.queue.filter _
  rw [List.mem_filter]
  constructor
  · intro hnone
    exact ⟨hdone.queued block k see hsee hnone,
      Option.isNone_iff_eq_none.2 (hbound.symm.trans hnone)⟩
  · rintro ⟨-, hnone⟩
    exact hbound.trans (Option.isNone_iff_eq_none.1 hnone)

theorem Settled.quiet {c c' : Catalog} (h : c.Settled) (hquiet : c.Quiet c') :
    c'.Settled := by
  intro block k see hsee
  rw [hquiet.docs.seeAlso] at hsee
  rw [hquiet.declarations, hquiet.docs.unresolved]
  exact h block k see hsee

theorem quiet_assignGroups (c : Catalog) : c.Quiet c.assignGroups := by
  have hassign (docs : Docs) (id : BlockId) :
      docs.Quiet (c.assignBlock docs id) := by
    unfold assignBlock
    split
    · split
      · split
        · exact .addGroupItem docs _ _
        · exact .refl docs
      · exact .refl docs
    · exact .refl docs
  have hregrouping := Docs.Quiet.isRegrouping
  exact ⟨rfl,
    (hregrouping.foldl hassign _ _).trans
      (hregrouping.foldl hregrouping.linkGroup _ _)⟩

theorem settled_finalize {c : Catalog} (hfinal : c.docs.isFinal = false)
    (h : c.docs.Refers fun name item => c.declarations.find name = some item) :
    c.finalize.Settled ∧ c.finalize.declarations = c.declarations := by
  obtain ⟨hsettled, hdeclarations⟩ :=
    settled_resolve (c := c.mapDocs fun d => { d with isFinal := true })
      ⟨h.entry, h.awaited⟩
  have hgrouped :=
    quiet_assignGroups (c.mapDocs fun d => { d with isFinal := true }).resolve
  have hpruned (c' : Catalog) : c'.Quiet (c'.mapDocs Docs.pruneGroups) :=
    ⟨rfl, Docs.Quiet.isRegrouping.pruneGroups _⟩
  have hquiet := hgrouped.trans (hpruned _)
  unfold finalize
  rw [hfinal]
  exact ⟨hsettled.quiet hquiet, hquiet.declarations.trans hdeclarations⟩

end Catalog

/-! ## Runs -/

namespace Run

variable (run : Run)

theorem unfolds_readSource (file source : Bytes) :
    run.catalog.Unfolds (run.readSource file source).2.catalog := by
  have hread :=
    (Catalog.Unfolds.note run.catalog (.reading file source.length)).trans
      (.readSource _ file source)
  unfold readSource
  dsimp only
  split
  · exact hread
  · exact hread

theorem unfolds_readAll (sources : List SourceText) :
    run.catalog.Unfolds (run.readAll sources).catalog := by
  induction sources generalizing run with
  | nil => exact .refl _
  | cons source sources ih =>
      exact (unfolds_readSource run source.file source.text).trans (ih _)

theorem sound_fresh (settings : Settings) (vocabulary : Vocabulary)
    (language : Bytes) :
    (fresh settings vocabulary language).catalog.Sound := by
  refine ⟨.refl _, ⟨?_, ?_⟩, ⟨?_, ?_⟩, rfl⟩
  all_goals
    intros
    simp_all [fresh, Catalog.mapDocs, Catalog.empty, Docs.empty, Docs.blockOf?,
      Docs.group?, Docs.seeAlso, Docs.block?, Docs.awaited]

/-- The recorder with which the next source is read. -/
def recorder (source : SourceText) : Recorder :=
  let c := run.catalog.note (.reading source.file source.text.length)
  .start { c with declarations := c.declarations.addSource source } source.file
    source.text (tokenize source.text)

/-- The recorder of the next source after some of its nodes. -/
def recorderIn (source : SourceText) (visited : List Node) : Recorder :=
  (Recorder.walkAll none none (run.recorder source) visited).2

theorem unfolds_recorderIn (source : SourceText) (visited : List Node) :
    run.catalog.declarations.Unfolds
      (run.recorderIn source visited).catalog.declarations := by
  have hsource := Declarations.Unfolds.single
    (.source run.catalog.declarations source)
  exact hsource.trans
    (Recorder.Unfolds.walkAll visited (run.recorder source) none none).declarations

theorem recorderIn_unfolds {source : SourceText} {visited rest : List Node}
    (hlexical : (tokenize source.text).findSome?
      (SourceError.ofToken? source.file) = none)
    (hnodes : (Outline.ofSource source.text (tokenize source.text)).nodes =
      visited ++ rest) :
    (run.recorderIn source visited).catalog.declarations.Unfolds
      (run.readSource source.file source.text).2.catalog.declarations := by
  have hall : (run.readSource source.file source.text).2.catalog.declarations =
      (run.recorderIn source (visited ++ rest)).catalog.declarations := by
    rw [← hnodes]
    unfold readSource Catalog.readSource Recorder.recordSource
    dsimp only
    rw [hlexical]
    cases (Outline.ofSource source.text (tokenize source.text)).error <;> rfl
  rw [hall]
  unfold recorderIn
  rw [Recorder.walkAll_append]
  exact (Recorder.Unfolds.walkAll rest _ none none).declarations

/-- Unless a name is declared both as a local and as a global variable, a name
that means an item means the same item in all later states: between two sources,
between two nodes of a source, and before and after every single walk.  In the
end every reference of every block, whether it was bound when its comment was
read or when all sources had been read, is bound to what its name means, and it
is listed as unresolved exactly if that is nothing. -/
theorem references_agree (settings : Settings) (vocabulary : Vocabulary)
    (language : Bytes) (sources : List SourceText) :
    let beginning := fresh settings vocabulary language
    let run := beginning.readAll sources
    let final := run.finalize.catalog
    run.catalog.declarations.Unambiguous →
    (∀ before after, before ++ after = sources →
      (beginning.readAll before).catalog.declarations.Unfolds
        run.catalog.declarations) ∧
    (∀ before source after, before ++ source :: after = sources →
      (tokenize source.text).findSome? (SourceError.ofToken? source.file) = none →
      ∀ visited rest,
        (Outline.ofSource source.text (tokenize source.text)).nodes =
          visited ++ rest →
        let inside := (beginning.readAll before).recorderIn source visited
        (beginning.readAll before).catalog.declarations.Unfolds
            inside.catalog.declarations ∧
          inside.catalog.declarations.Unfolds run.catalog.declarations) ∧
    (∀ (r : Recorder) owner table node, r.catalog.declarations.Unfolds
      (Recorder.walk owner table r node).2.catalog.declarations) ∧
    (∀ d d', Declarations.empty.Unfolds d → d.Unfolds d' →
      d'.Unfolds run.catalog.declarations →
      ∀ name item, d.find name = some item → d'.find name = some item) ∧
    final.declarations = run.catalog.declarations ∧
    ∀ block b k see, final.docs.block? block = some b → b.seeAlso[k]? = some see →
      see.item = final.declarations.find see.name ∧
        (see.item = none ↔
          ⟨block, .see, see.name, 0, some k⟩ ∈ final.docs.unresolved) := by
  intro beginning run final hclear
  have hstable (d d' : Declarations) (hd : Declarations.empty.Unfolds d)
      (h : d.Unfolds d') (h' : d'.Unfolds run.catalog.declarations) (name : Bytes)
      (item : ItemId) (hitem : d.find name = some item) :
      d'.find name = some item :=
    hd.find h (hclear.of_grows h'.grows) hitem
  have hsound : run.catalog.Sound :=
    (unfolds_readAll beginning sources).sound (sound_fresh _ _ _)
  have hrefers : run.catalog.docs.Refers fun name item =>
      run.catalog.declarations.find name = some item := by
    apply hsound.docs.refers.mono
    rintro name item ⟨before, hbefore, hafter, hitem⟩
    exact hstable before run.catalog.declarations hbefore hafter (.refl _) name
      item hitem
  obtain ⟨hsettled, hdeclarations⟩ :=
    Catalog.settled_finalize hsound.docs.isFinal hrefers
  refine ⟨?_, ?_, ?_, hstable, hdeclarations, ?_⟩
  · rintro before after rfl
    have hrest := (unfolds_readAll (beginning.readAll before) after).declarations
    rwa [← readAll_append] at hrest
  · rintro before source after rfl hlexical visited rest hnodes
    refine ⟨unfolds_recorderIn _ source visited, ?_⟩
    have hsource := (beginning.readAll before).recorderIn_unfolds hlexical hnodes
    refine hsource.trans ?_
    have hrest := unfolds_readAll
      ((beginning.readAll before).readSource source.file source.text).2 after
    rw [show run = _ from readAll_append beginning before (source :: after)]
    exact hrest.declarations
  · intro r owner table node
    exact (Recorder.Unfolds.walk node r owner table).declarations
  · intro block b k see hblock hsee
    exact hsettled block k see (Docs.seeAlso_of_block? hblock ▸ hsee)

/-- The first source refers to a field that the second one declares, which
refers to it as well. -/
private def referringSources : List SourceText :=
  [⟨utf8 "a.lua", utf8 "--! \\see t.f g\nx = 1\n"⟩,
    ⟨utf8 "b.lua", utf8 "t = \x7bf = 1\x7d\n--! \\see t.f\ny = t\n"⟩]

private def referringRun : Run :=
  (fresh .default .default (utf8 "Lua")).readAll referringSources

private def referringFinal : Catalog := referringRun.finalize.catalog

/-- The name that had to wait and the one that had not are bound to the same
item, and one is left. -/
theorem references_agree_sample :
    (referringRun.catalog.docs.queue.map (·.name) = [utf8 "t.f", utf8 "g"] ∧
      referringFinal.docs.seeAlso 0 = [⟨utf8 "t.f", some 2⟩, ⟨utf8 "g", none⟩] ∧
      referringFinal.docs.seeAlso 1 = [⟨utf8 "t.f", some 2⟩]) ∧
    referringFinal.declarations.find (utf8 "t.f") = some 2 ∧
      ⟨0, .see, utf8 "g", 0, some 1⟩ ∈ referringFinal.docs.unresolved := by
  have hrun :
      referringRun.catalog.docs.queue.map (·.name) = [utf8 "t.f", utf8 "g"] ∧
      referringFinal.docs.seeAlso 0 = [⟨utf8 "t.f", some 2⟩, ⟨utf8 "g", none⟩] ∧
      referringFinal.docs.seeAlso 1 = [⟨utf8 "t.f", some 2⟩] := by
    decide +kernel
  obtain ⟨-, -, -, -, -, hsettled⟩ :=
    references_agree .default .default (utf8 "Lua") referringSources
      (by decide +kernel)
  obtain ⟨b, hb⟩ : ∃ b, referringFinal.docs.block? 0 = some b :=
    Option.isSome_iff_exists.1 (by decide +kernel)
  have hsee : b.seeAlso = [⟨utf8 "t.f", some 2⟩, ⟨utf8 "g", none⟩] :=
    (Docs.seeAlso_of_block? hb).symm.trans hrun.2.1
  obtain ⟨hfirst, -⟩ := hsettled 0 b 0 ⟨utf8 "t.f", some 2⟩ hb (by simp [hsee])
  obtain ⟨-, hsecond⟩ := hsettled 0 b 1 ⟨utf8 "g", none⟩ hb (by simp [hsee])
  exact ⟨hrun, hfirst.symm, hsecond.1 rfl⟩

end Run

end LuaGloss

import LuaGloss.Proofs.Comment.Steps
import LuaGloss.Proofs.Docs.Membership
import LuaGloss.Proofs.Docs.References

/-!
# Comments keep the documentation tidy

A comment writes into one block after the other, and none of them has been
replaced.  This is clear for a new block, for the block of a group and for the
block that an item has.  A comment that continues another goes on in the block
in which that one stopped; it may do so only if no comment that points back has
been read in between.
-/

namespace LuaGloss

theorem Block.group_of_isEmpty {b : Block} (h : b.isEmpty = true) :
    b.group = none := by
  simp only [isEmpty, Bool.and_eq_true, Option.isNone_iff_eq_none] at h
  exact h.2

namespace Catalog

/-- What a block may be in for when it is bound to the item that it names. -/
structure Bound (c : Catalog) (block : BlockId) (c' : Catalog) : Prop where
  docs : c'.docs.Tidy
  grows : c.docs.Grows c'.docs
  cases : Docs.Steady block c.docs c'.docs ∨
    ∃ item, c'.docs.blockOf? item = some block

theorem Bound.steady {c c' : Catalog} (hd : c.docs.Tidy) {block : BlockId}
    (hblock : block < c.docs.blocks.size) (h : Docs.Steady block c.docs c'.docs) :
    c.Bound block c' :=
  ⟨hd.steady h hblock, .steady h, .inl h⟩

/-- Binding a block changes nothing, or replaces a block that belongs to no
group. -/
theorem bound_bindTarget {c : Catalog} (hd : c.docs.Tidy) {block : BlockId}
    (hblock : block < c.docs.blocks.size) (item : ItemId) (name : Bytes) :
    c.Bound block (c.bindTarget block item name) := by
  unfold bindTarget
  split
  · exact .steady hd hblock (.refl _)
  · split
    · exact .steady hd hblock (.refl _)
    · split
      · exact .steady hd hblock (.warn _ _ _ _)
      · split
        · exact .steady hd hblock (.warn _ _ _ _)
        next hempty =>
          refine ⟨hd.attach ?_, .attach _ _ _,
            .inr ⟨item,
              (c.docs.blockOf?_attach item item block).trans (if_pos rfl)⟩⟩
          intro old seat hold hseat
          obtain ⟨b, hb, rfl⟩ := Option.map_eq_some_iff.1 hseat
          have hisEmpty : b.isEmpty = true := by
            simpa [Catalog.blockOf?, hold, hb] using hempty
          exact Block.group_of_isEmpty hisEmpty

theorem bound_setTarget {c : Catalog} (hd : c.docs.Tidy) {block : BlockId}
    (hblock : block < c.docs.blocks.size) (command : Command) (name : Bytes)
    (overload : Int) :
    c.Bound block (c.setTarget block command name overload) := by
  have hmarked : Docs.Steady block c.docs (c.modifyBlock block fun b =>
      { b with hasTarget := true }).docs :=
    .modifyBlock _ _ fun _ => rfl
  unfold setTarget
  dsimp only
  split
  next item _ =>
    have hbound :=
      bound_bindTarget (hd.steady hmarked hblock)
        (hmarked.lt_size.2 hblock) item name
    exact ⟨hbound.docs, (Docs.Grows.steady hmarked).trans hbound.grows,
      hbound.cases.imp_left hmarked.trans⟩
  next =>
    exact .steady hd hblock
      (hmarked.trans (.enqueue _ ⟨block, command, name, overload, none⟩))

theorem tidy_itemBlock {c : Catalog} (hd : c.docs.Tidy) (item : ItemId) :
    (c.itemBlock item).2.docs.Tidy ∧ c.docs.Grows (c.itemBlock item).2.docs ∧
      (c.itemBlock item).2.docs.blockOf? item = some (c.itemBlock item).1 := by
  rcases c.itemBlock_cases item with ⟨block, hblock, heq⟩ | ⟨hnone, file, pos, heq⟩
  · rw [heq]
    exact ⟨hd, .refl _, hblock⟩
  · rw [heq]
    refine ⟨(hd.addBlock file pos).attach ?_,
      (Docs.Grows.addBlock _ _ _).trans (.attach _ _ _), ?_⟩
    · intro old seat hold
      exact absurd (hold.symm.trans hnone) nofun
    · exact ((c.docs.addBlock file pos).blockOf?_attach item item _).trans
        (if_pos rfl)

end Catalog

/-! ## Reading the text of a comment -/

/-- What holds of a comment reader until items are put into groups. -/
structure CommentReader.Tidy (r : CommentReader) : Prop where
  docs : r.catalog.docs.Tidy
  regions : ∀ region ∈ r.regions, region.group ∈ r.catalog.docs.listedGroups
  block : ∀ place, r.resume = some place → place.block < r.catalog.docs.blocks.size
  group : ∀ place group, r.resume = some place → place.group = some group →
    group ∈ r.catalog.docs.listedGroups

theorem CommentReader.Tidy.grows {r r' : CommentReader} (hr : r.Tidy)
    (hdocs : r'.catalog.docs.Tidy)
    (hgrows : r.catalog.docs.Grows r'.catalog.docs)
    (hregions : ∀ region ∈ r'.regions, region ∈ r.regions ∨
      region.group ∈ r'.catalog.docs.listedGroups)
    (hresume : ∀ place, r'.resume = some place → r.resume = some place) :
    r'.Tidy where
  docs := hdocs
  regions region hregion :=
    (hregions region hregion).elim (fun hold =>
      hgrows.listedGroups _ (hr.regions region hold)) fun hnew => hnew
  block place hplace :=
    Nat.lt_of_lt_of_le (hr.block place (hresume place hplace)) hgrows.size
  group place group hplace hgroup :=
    hgrows.listedGroups _ (hr.group place group (hresume place hplace) hgroup)

theorem CommentReader.Tidy.activeGroup? {r : CommentReader} (hr : r.Tidy)
    {group : GroupId} (h : r.activeGroup? = some group) :
    group ∈ r.catalog.docs.listedGroups := by
  unfold CommentReader.activeGroup? at h
  split at h
  · simp at h
  next region regions hregions =>
    split at h
    · obtain rfl := Option.some.inj h
      exact hr.regions region (by simp [hregions])
    · simp at h

namespace Reading

/-- Only text is written, perhaps with names that are to be looked up. -/
structure Writes (s s' : Reading) : Prop where
  course : s.Course s'
  reader : s'.reader = { s.reader with catalog := s'.reader.catalog }
  block : s'.place.block = s.place.block
  group : s'.place.group = s.place.group
  docs : Docs.Steady s.place.block s.reader.catalog.docs s'.reader.catalog.docs

namespace Writes

theorem warn (s : Reading) (what : Warning) : s.Writes (s.warn what) :=
  ⟨.warn s what, rfl, rfl, rfl, .warn _ _ _ _⟩

theorem toPart (s : Reading) (part : BlockPart) : s.Writes (s.toPart part) :=
  ⟨.toPart s part, rfl, rfl, rfl, .refl _⟩

theorem write (s : Reading) {f : Block → Block} (hf : ∀ b, (f b).frame = b.frame)
    (hmore : ∀ b : Block, b.Continues (f b)) : s.Writes (s.modifyBlock f) := by
  have hseat (b : Block) := congrArg Block.seat (hf b)
  exact ⟨.write s hf hmore, rfl, rfl, rfl, .modifyBlock _ _ hseat⟩

theorem addSeeAlso (s : Reading) (name : Bytes) :
    s.Writes (s.mapCatalog (·.addSeeAlso s.place.block name)) := by
  refine ⟨.addSeeAlso s name, rfl, rfl, rfl, ?_⟩
  have hadded : Docs.Steady s.place.block s.reader.catalog.docs
      (s.reader.catalog.modifyBlock s.place.block fun b =>
        { b with
          seeAlso := b.seeAlso ++
            [⟨name, s.reader.catalog.declarations.find name⟩] }).docs :=
    .modifyBlock _ _ fun _ => rfl
  change Docs.Steady _ _ (s.reader.catalog.addSeeAlso s.place.block name).docs
  unfold Catalog.addSeeAlso
  dsimp only
  split
  · exact hadded
  · exact hadded.trans (.enqueue _ ⟨s.place.block, .see, name, 0, _⟩)

end Writes

/-- The block into which a comment writes has not been replaced. -/
structure Tidy (s : Reading) : Prop where
  catalog : s.reader.catalog.Consistent
  reader : s.reader.Tidy
  block : s.place.block < s.reader.catalog.docs.blocks.size
  group : ∀ group, s.place.group = some group →
    group ∈ s.reader.catalog.docs.listedGroups
  current : ¬ s.reader.catalog.docs.IsReplaced s.place.block

namespace Tidy

variable {s s' : Reading} (hs : s.Tidy)

include hs

theorem consistent (h : s.Course s') : s'.reader.catalog.Consistent :=
  ((Advances.course h).catalog hs.catalog).1.consistent hs.catalog

theorem writes (h : s.Writes s') : s'.Tidy where
  catalog := hs.consistent h.course
  reader := by
    refine hs.reader.grows (hs.reader.docs.steady h.docs hs.block)
      (.steady h.docs) ?_ ?_
    · rw [h.reader]
      exact fun _ => .inl
    · rw [h.reader]
      exact fun _ h => h
  block := by
    rw [h.block, h.docs.lt_size]
    exact hs.block
  group := by
    rw [h.group, h.docs.listedGroups]
    exact hs.group
  current := by
    rw [h.block, h.docs.isReplaced]
    exact hs.current

theorem openRegion : s.openRegion.Tidy := by
  unfold Reading.openRegion
  split
  · exact hs.writes (.warn s _)
  next group hgroup =>
    refine ⟨hs.catalog, hs.reader.grows hs.reader.docs (.refl _) ?_ fun _ h =>
      h, hs.block, hs.group, hs.current⟩
    intro region hregion
    rcases List.mem_cons.1 hregion with rfl | hold
    · right
      -- The region belongs to a group that the comment has named or that its
      -- block belongs to.
      rcases Option.or_eq_some_iff.1 hgroup with hnamed | ⟨-, hblock⟩
      · exact hs.group group hnamed
      · obtain ⟨b, hb, hgroup'⟩ := Option.bind_eq_some_iff.1 hblock
        exact hs.reader.docs.grouped _ b.seat group
          (Docs.seat?_of_block? hb) hgroup'
    · exact .inl hold

theorem closeRegion : s.closeRegion.Tidy := by
  unfold Reading.closeRegion
  split
  · exact hs.writes (.warn s _)
  next region regions hregions =>
    refine ⟨hs.catalog, hs.reader.grows hs.reader.docs (.refl _) ?_ fun _ h =>
      h, hs.block, hs.group, hs.current⟩
    intro region' hregion'
    left
    rw [hregions]
    exact List.mem_cons_of_mem _ hregion'

theorem startFootnote : s.startFootnote.Tidy := by
  have hdocs := hs.reader.docs.addFootnote hs.block
  have hgrows := Docs.Grows.addFootnote s.reader.catalog.docs s.place.block
  have hseat : (s.reader.catalog.docs.addFootnote s.place.block).seat?
      s.reader.catalog.docs.blocks.size =
      some ⟨.footnote s.place.block, none, none⟩ := by
    rw [Docs.seat?_addFootnote hs.block, if_pos rfl]
  refine ⟨hs.consistent (.startFootnote s),
    hs.reader.grows hdocs hgrows (fun _ => .inl) fun _ h => h, ?_, ?_, ?_⟩
  · exact Docs.lt_size_of_seat? hseat
  · exact fun group hgroup => hgrows.listedGroups _ (hs.group group hgroup)
  · exact Docs.not_isReplaced_of_seat hseat (.inr rfl)

theorem joinGroup (command : Command) (argument : Bytes) :
    (s.joinGroup command argument).1.Tidy := by
  have hconsistent := hs.consistent (.joinGroup s command argument)
  unfold Reading.joinGroup at hconsistent ⊢
  dsimp only at hconsistent ⊢
  split
  · exact hs.writes (.warn s _)
  next hname =>
    rw [if_neg hname] at hconsistent
    have hgrows := Docs.Grows.getGroup s.reader.catalog.docs (splitWord argument).1
    have htidy := hs.reader.docs.getGroup (splitWord argument).1
    have hlisted :=
      s.reader.catalog.docs.mem_listedGroups_getGroup (splitWord argument).1
    have hcurrent :=
      mt (s.reader.catalog.docs.isReplaced_getGroup (splitWord argument).1
        hs.block).1 hs.current
    generalize s.reader.catalog.docs.getGroup (splitWord argument).1 = found
      at hconsistent hgrows htidy hlisted hcurrent ⊢
    have hjoined : found.2.Agrees (found.2.modifyBlock s.place.block fun b =>
        { b with group := some found.1 }) :=
      .modifyBlock _ _ fun _ => rfl
    have hdocs :=
      htidy.setGroup (f := fun b => { b with group := some found.1 })
        (g := fun _ => some found.1)
        (fun _ => rfl) (fun _ _ h => .inr (Option.some.inj h ▸ hlisted)) hcurrent
    have hall :=
      hgrows.trans (.modifyBlock _ s.place.block fun b =>
        { b with group := some found.1 })
    refine ⟨hconsistent, hs.reader.grows hdocs hall (fun _ => .inl) fun _ h =>
      h, ?_, ?_, ?_⟩
    · exact Nat.lt_of_lt_of_le hs.block hall.size
    · rintro _ ⟨⟩
      exact hlisted
    · exact mt hjoined.isReplaced.1 hcurrent

theorem defineGroup (command : Command) (argument : Bytes) :
    (s.defineGroup command argument).1.Tidy := by
  have hconsistent := hs.consistent (.defineGroup s command argument)
  unfold Reading.defineGroup at hconsistent ⊢
  dsimp only at hconsistent ⊢
  split
  · exact hs.writes (.warn s _)
  next hname =>
    rw [if_neg hname] at hconsistent
    have hgrows := Docs.Grows.getGroup s.reader.catalog.docs (splitWord argument).1
    have htidy := hs.reader.docs.getGroup (splitWord argument).1
    have hlisted :=
      s.reader.catalog.docs.mem_listedGroups_getGroup (splitWord argument).1
    have hlinked :=
      ((Catalog.Advances.getGroup s.reader.catalog (splitWord argument).1
        hs.catalog).1.consistent
        hs.catalog).docs
    obtain ⟨g, hg⟩ := s.reader.catalog.docs.group?_getGroup (splitWord argument).1
    generalize s.reader.catalog.docs.getGroup (splitWord argument).1 = found
      at hconsistent hgrows htidy hlisted hlinked hg ⊢
    have hblock : ((found.2.group? found.1).map (·.block)).getD 0 = g.block := by
      rw [hg]
      rfl
    rw [hblock] at hconsistent ⊢
    -- The block of a group is no normal one.
    obtain ⟨links, hlinks, hkind⟩ :=
      hlinked.grouped.block _ _ (Docs.groupLinks?_of_group? hg)
    obtain ⟨b, hb, rfl⟩ := Option.map_eq_some_iff.1 hlinks
    have hcurrent : ¬ found.2.IsReplaced g.block :=
      Docs.not_isReplaced_of_seat (Docs.seat?_of_block? hb)
        (.inl (by simp [show b.seat.kind = _ from hkind]))
    have hsize : g.block < found.2.blocks.size :=
      (Array.getElem?_eq_some_iff.1 hb).1
    refine ⟨hconsistent,
      hs.reader.grows ?_ (hgrows.trans (.modifyBlock _ _ _)) (fun _ => .inl)
        fun _ h => h, ?_, ?_, ?_⟩
    · refine htidy.setGroup (g := fun group =>
        group.or (s.reader.activeGroup?.filter (· != found.1))) (fun _ => rfl) ?_
        hcurrent
      intro before group hgroup
      rcases Option.or_eq_some_iff.1 hgroup with hold | ⟨-, hactive⟩
      · exact .inl hold
      · exact .inr
          (hgrows.listedGroups _
            (hs.reader.activeGroup? (Option.filter_eq_some_iff.1 hactive).1))
    · exact Nat.lt_of_lt_of_le hsize (Docs.Grows.modifyBlock _ _ _).size
    · rintro _ ⟨⟩
      exact hlisted
    · refine mt (Docs.Agrees.isReplaced ?_).1 hcurrent
      exact .modifyBlock _ _ fun _ => rfl

theorem bound (hconsistent : s'.reader.catalog.Consistent)
    (hbound : s.reader.catalog.Bound s.place.block s'.reader.catalog)
    (hplace : s'.place = s.place)
    (hregions : s'.reader.regions = s.reader.regions)
    (hresume : s'.reader.resume = s.reader.resume) : s'.Tidy where
  catalog := hconsistent
  reader :=
    hs.reader.grows hbound.docs hbound.grows (hregions ▸ fun _ => .inl)
      (hresume ▸ fun _ h => h)
  block := by
    rw [hplace]
    exact Nat.lt_of_lt_of_le hs.block hbound.grows.size
  group := by
    rw [hplace]
    exact fun group hgroup => hbound.grows.listedGroups _ (hs.group group hgroup)
  current := by
    rw [hplace]
    rcases hbound.cases with hsteady | ⟨item, hitem⟩
    · rw [hsteady.isReplaced]
      exact hs.current
    · exact hconsistent.docs.attached.not_isReplaced hitem

theorem setTarget (command : Command) (argument : Bytes) :
    (s.setTarget command argument).1.Tidy := by
  have hconsistent := hs.consistent (.setTarget s command argument)
  unfold Reading.setTarget at hconsistent ⊢
  dsimp only at hconsistent ⊢
  split
  · exact hs.writes (.warn s _)
  next hname =>
    rw [if_neg hname] at hconsistent
    split
    next hoverload =>
      rw [if_pos hoverload] at hconsistent
      exact hs.bound hconsistent
        (Catalog.bound_setTarget hs.reader.docs hs.block command _ _) rfl rfl rfl
    next hoverload =>
      rw [if_neg hoverload] at hconsistent
      exact hs.bound hconsistent
        (Catalog.bound_setTarget hs.reader.docs hs.block command _ _) rfl rfl rfl

theorem course (h : s.Course s') : s'.Tidy := by
  induction h with
  | refl _ => exact hs
  | warn _ what => exact hs.writes (.warn _ what)
  | toPart _ part => exact hs.writes (.toPart _ part)
  | write _ hf hmore => exact hs.writes (.write _ hf hmore)
  | addSeeAlso _ name => exact hs.writes (.addSeeAlso _ name)
  | trans _ _ ih ih' => exact ih' (ih hs)
  | openRegion _ => exact hs.openRegion
  | closeRegion _ => exact hs.closeRegion
  | startFootnote _ => exact hs.startFootnote
  | joinGroup _ command argument => exact hs.joinGroup command argument
  | defineGroup _ command argument => exact hs.defineGroup command argument
  | setTarget _ command argument => exact hs.setTarget command argument

end Tidy

end Reading

/-! ## The comment reader -/

namespace CommentReader

/-- The block in which a comment may be continued has not been replaced. -/
def Resumable (r : CommentReader) : Prop :=
  ∀ place, r.resume = some place → ¬ r.catalog.docs.IsReplaced place.block

namespace Tidy

variable {r : CommentReader} (hr : r.Tidy)

include hr

theorem note (notice : Notice) : (r.mapCatalog (·.note notice)).Tidy :=
  ⟨hr.docs.note notice, hr.regions, hr.block, hr.group⟩

theorem warn (file : Bytes) (pos : Pos) (what : Warning) :
    (r.mapCatalog (·.warn file pos what)).Tidy :=
  ⟨hr.docs.warn file pos what, hr.regions, hr.block, hr.group⟩

theorem discard : r.discard.Tidy := ⟨hr.docs, hr.regions, nofun, nofun⟩

theorem enterScope (scope : Int) : (r.enterScope scope).Tidy :=
  ⟨hr.docs, hr.regions, nofun, nofun⟩

theorem closeRegions (scope : Int) : (r.closeRegions scope).Tidy :=
  ⟨hr.docs, fun region hregion =>
    hr.regions region ((List.dropWhile_sublist _).subset hregion),
      hr.block, hr.group⟩

theorem leaveScope : r.leaveScope.Tidy := by
  have hclosed := hr.closeRegions r.currentScope
  exact ⟨hclosed.docs, hclosed.regions, nofun, nofun⟩

theorem startBack (hready : r.Ready) (file : Bytes) (pos : Pos) {item : ItemId}
    (hitem : item < r.catalog.declarations.items.size) :
    (r.startBack file pos item).Tidy := by
  obtain ⟨htidy, hgrows, hblock⟩ := Catalog.tidy_itemBlock hr.docs item
  have hconsistent :=
    (Catalog.Advances.itemBlock r.catalog (fun _ => hitem)
      hready.catalog).1.consistent hready.catalog
  obtain ⟨links, hlinks, -⟩ := hconsistent.docs.attached.item item _ hblock
  have hplaced :
      Reading.Tidy ⟨{ r with catalog := (r.catalog.itemBlock item).2 }, file, pos,
      ⟨(r.catalog.itemBlock item).1, .detailed, none⟩⟩ :=
    ⟨hconsistent, hr.grows htidy hgrows (fun _ => .inl) fun _ h => h,
      Docs.lt_size_of_links? hlinks, nofun,
      hconsistent.docs.attached.not_isReplaced hblock⟩
  refine hplaced.writes (.write _ (fun b => ?_) fun b => ?_)
  · split <;> rfl
  · split <;> exact { Block.Continues.refl b with }

theorem readBack (hready : r.Ready) (comment file : Bytes) (pos : Pos)
    {item : ItemId} (hitem : item < r.catalog.declarations.items.size) :
    (r.readBack comment file pos item).Tidy :=
  ((hr.startBack hready file pos hitem).course (.read _ comment)).reader

theorem startNew (hready : r.Ready) (file : Bytes) (pos : Pos) :
    (r.startNew file pos).Tidy := by
  have hnoted : r.noteDropped.catalog.docs.Tidy ∧
      r.catalog.docs.Grows r.noteDropped.catalog.docs := by
    unfold noteDropped
    split
    · split
      · exact ⟨hr.docs, .refl _⟩
      · exact ⟨hr.docs.note _, Nat.le_refl _, fun _ h => h⟩
    · exact ⟨hr.docs, .refl _⟩
  have hnew : (r.noteDropped.catalog.docs.addBlock file pos).seat?
      r.noteDropped.catalog.docs.blocks.size =
      some ⟨.normal, none, none⟩ := by
    rw [Docs.seat?_addBlock, if_pos rfl]
  refine ⟨(Leads.startNew r file pos hready).2.catalog, ?_,
    Docs.lt_size_of_seat? hnew, nofun, ?_⟩
  · exact hr.grows (hnoted.1.addBlock file pos)
      (hnoted.2.trans (.addBlock _ _ _)) (fun _ => .inl) fun _ h => h
  · exact Docs.not_isReplaced_of_seat hnew (.inr rfl)

theorem readAhead (hready : r.Ready) (comment file : Bytes) (pos : Pos)
    {continues : Bool} (hcontinues : continues = true → r.Resumable) :
    (r.readAhead comment file pos continues).Tidy ∧
    (r.readAhead comment file pos continues).Resumable := by
  have hread (s : Reading) (hs : s.Tidy) :
      CommentReader.Tidy { ((s.addSource comment).readText comment).reader with
        resume := some ((s.addSource comment).readText comment).place } ∧
      CommentReader.Resumable
        { ((s.addSource comment).readText comment).reader with
        resume := some ((s.addSource comment).readText comment).place } := by
    have hdone := hs.course (.read s comment)
    refine ⟨⟨hdone.reader.docs, hdone.reader.regions, ?_, ?_⟩, ?_⟩
    · rintro _ ⟨⟩
      exact hdone.block
    · rintro _ group ⟨⟩ hgroup
      exact hdone.group group hgroup
    · rintro _ ⟨⟩
      exact hdone.current
  unfold CommentReader.readAhead
  dsimp only
  split
  next place hplace =>
    split at hplace
    next htrue =>
      exact hread _ ⟨hready.catalog, hr, hr.block place hplace, fun group =>
        hr.group place group hplace,
        hcontinues htrue place hplace⟩
    next => simp at hplace
  next => exact hread _ (hr.startNew hready file pos)

/-- The block that is handed to a declaration gets the active group while it
documents nothing. -/
theorem takeBlock (hready : r.Ready) : r.takeBlock.2.Tidy := by
  have hgrouped {d : Docs} (hd : d.Tidy) {id : BlockId} {group : GroupId}
      (hgroup : group ∈ d.listedGroups)
      (hid : ¬ d.IsReplaced id) :
      (d.modifyBlock id fun b =>
        { b with group := b.group.or (some group) }).Tidy := by
    refine hd.setGroup (g := fun before => before.or (some group))
      (fun _ => rfl) ?_ hid
    intro before other hother
    rcases Option.or_eq_some_iff.1 hother with hold | ⟨-, hnew⟩
    · exact .inl hold
    · exact .inr (Option.some.inj hnew ▸ hgroup)
  unfold CommentReader.takeBlock
  dsimp only
  split
  · exact hr.discard
  next group hactive =>
    have hgroup := hr.activeGroup? hactive
    cases hoffer : r.offered? with
    | some id =>
        obtain ⟨b, hb, hfree⟩ := Leads.offered hready hoffer
        have hcurrent :=
          Docs.not_isReplaced_of_seat (Docs.seat?_of_block? hb) (.inr hfree)
        exact hr.discard.grows (hgrouped hr.docs hgroup hcurrent)
          (.modifyBlock _ _ _) (fun _ => .inl) nofun
    | none =>
        have hnew :
            (r.catalog.docs.addBlock [] .none).seat? r.catalog.docs.blocks.size =
            some ⟨.normal, none, none⟩ := by
          rw [Docs.seat?_addBlock, if_pos rfl]
        have hgrows := Docs.Grows.addBlock r.catalog.docs [] .none
        have hcurrent := Docs.not_isReplaced_of_seat hnew (.inr rfl)
        exact hr.discard.grows
          (hgrouped (hr.docs.addBlock _ _) (hgrows.listedGroups _ hgroup) hcurrent)
          (hgrows.trans (.modifyBlock _ _ _)) (fun _ => .inl) nofun

theorem declare (hready : r.Ready) (item : Item) : (r.declare item).2.Tidy := by
  obtain ⟨hreaches, -, -, -⟩ := Leads.takeBlock r hready
  have hlinked := (hreaches.consistent hready.catalog).docs
  have htaken := hr.takeBlock hready
  have hadded : (r.takeBlock.2.catalog.addItem item).2.docs.Tidy ∧
      r.takeBlock.2.catalog.docs.Grows
        (r.takeBlock.2.catalog.addItem item).2.docs ∧
      (r.takeBlock.2.catalog.addItem item).2.docs.attached =
        r.takeBlock.2.catalog.docs.attached := by
    unfold Catalog.addItem
    dsimp only
    split
    · exact ⟨htaken.docs.note _, ⟨Nat.le_refl _, fun _ h => h⟩, rfl⟩
    · exact ⟨htaken.docs, .refl _, rfl⟩
  obtain ⟨hdocs, hgrows, hattached⟩ := hadded
  unfold CommentReader.declare
  dsimp only
  split
  next block _ =>
    refine htaken.grows (hdocs.attach ?_) (hgrows.trans (.attach _ _ _))
      (fun _ => .inl) fun _ h => h
    intro old seat hold
    unfold Docs.blockOf? at hold
    rw [hattached] at hold
    exact absurd (hlinked.attached.bound _ old hold) (Nat.lt_irrefl _)
  next => exact htaken.grows hdocs hgrows (fun _ => .inl) fun _ h => h

end Tidy

end CommentReader

end LuaGloss

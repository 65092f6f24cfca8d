import LuaGloss.Proofs.Source.Walk
import LuaGloss.Proofs.Syntax.Acceptance
import Mathlib.Data.List.TakeWhile
import Mathlib.Logic.Relation

/-!
# Regions follow scopes

Group regions are opened and closed by comments, scopes by statements, and a
comment may close a region that was opened in another scope.  Still the open
regions lie in the open scopes, the innermost ones in the innermost scope.
Therefore it is enough to look at the innermost region to find the active group,
and to close a run of innermost regions when a scope is left.
-/

namespace LuaGloss

namespace Reading

/-- `@{` opens a region in the current scope, if there is a group for it. -/
theorem regions_openRegion (s : Reading) :
    s.openRegion.reader.regions =
      ((s.place.group.or (s.block?.bind (·.group))).map
        (⟨s.reader.currentScope, ·⟩)).toList ++ s.reader.regions := by
  unfold openRegion
  split
  next hgroup =>
    rw [hgroup]
    rfl
  next group hgroup =>
    rw [hgroup]
    rfl

/-- `@}` closes the innermost region, whatever scope it lies in. -/
theorem regions_closeRegion (s : Reading) :
    s.closeRegion.reader.regions = s.reader.regions.tail := by
  unfold closeRegion
  split
  next hregions =>
    rw [hregions]
    exact hregions
  next hregions => rw [hregions, List.tail_cons]

end Reading

namespace CommentReader

/-- From `r` to `r'` the scopes stay, some innermost regions may be closed, and
others are opened in the current scope. -/
structure Shifts (r r' : CommentReader) : Prop where
  scopes : r'.scopes = r.scopes
  regions : ∃ opened kept, r'.regions = opened ++ kept ∧ kept <:+ r.regions ∧
    ∀ region ∈ opened, region.scope = r.currentScope

namespace Shifts

theorem of_eq {r r' : CommentReader} (hscopes : r'.scopes = r.scopes)
    (hregions : r'.regions = r.regions) : r.Shifts r' :=
  ⟨hscopes, [], r.regions, hregions, List.suffix_rfl, by simp⟩

theorem refl (r : CommentReader) : r.Shifts r := of_eq rfl rfl

theorem trans {r r' r'' : CommentReader} (h : r.Shifts r') (h' : r'.Shifts r'') :
    r.Shifts r'' := by
  have hcurrent : r'.currentScope = r.currentScope := by
    unfold currentScope
    rw [h.scopes]
  obtain ⟨opened, kept, hregions, hkept, hopened⟩ := h.regions
  obtain ⟨opened', kept', hregions', ⟨closed, hclosed⟩, hopened'⟩ := h'.regions
  refine ⟨h'.scopes.trans h.scopes, ?_⟩
  rw [hregions] at hclosed
  -- What is closed the second time is some of the new regions, or all of them
  -- and more.
  rcases List.append_eq_append_iff.1 hclosed with
    ⟨still, hopen, hkept'⟩ | ⟨more, -, hkept'⟩
  · refine ⟨opened' ++ still,
      kept, by rw [hregions', hkept', List.append_assoc], hkept, ?_⟩
    intro region hregion
    rcases List.mem_append.1 hregion with hnew | hstill
    · exact (hopened' region hnew).trans hcurrent
    · exact hopened region (hopen ▸ List.mem_append_right _ hstill)
  · refine ⟨opened', kept', hregions', .trans ⟨more, hkept'.symm⟩ hkept, ?_⟩
    intro region hregion
    exact (hopened' region hregion).trans hcurrent

theorem course {s s' : Reading} (h : s.Course s') : s.reader.Shifts s'.reader := by
  induction h with
  | trans _ _ ih ih' => exact ih.trans ih'
  | openRegion s =>
      refine ⟨?_, _, s.reader.regions, s.regions_openRegion, List.suffix_rfl, ?_⟩
      · unfold Reading.openRegion
        split <;> rfl
      · intro region hregion
        obtain ⟨group, -, rfl⟩ :=
          Option.map_eq_some_iff.1 (Option.mem_toList.1 hregion)
        rfl
  | closeRegion s =>
      refine ⟨?_, [], _, s.regions_closeRegion, List.tail_suffix _, by simp⟩
      unfold Reading.closeRegion
      split <;> rfl
  | joinGroup s command argument =>
      unfold Reading.joinGroup
      dsimp only
      split <;> exact of_eq rfl rfl
  | defineGroup s command argument =>
      unfold Reading.defineGroup
      dsimp only
      split <;> exact of_eq rfl rfl
  | setTarget s command argument =>
      unfold Reading.setTarget
      dsimp only
      split
      · exact of_eq rfl rfl
      · split <;> exact of_eq rfl rfl
  | _ => exact of_eq rfl rfl

theorem readBack (r : CommentReader) (comment file : Bytes) (pos : Pos)
    (item : ItemId) : r.Shifts (r.readBack comment file pos item) :=
  (of_eq rfl rfl : r.Shifts (r.startBack file pos item).reader).trans
    (course (.read _ comment))

theorem readAhead (r : CommentReader) (comment file : Bytes) (pos : Pos)
    (continues : Bool) : r.Shifts (r.readAhead comment file pos continues) := by
  have hread (s : Reading) (hs : r.Shifts s.reader) : r.Shifts
      { ((s.addSource comment).readText comment).reader with
        resume := some ((s.addSource comment).readText comment).place } :=
    (hs.trans (course (.read s comment))).trans (of_eq rfl rfl)
  unfold CommentReader.readAhead
  dsimp only
  split
  · exact hread _ (.refl r)
  · exact hread _ (of_eq rfl rfl)

theorem declare (r : CommentReader) (item : Item) :
    r.Shifts (r.declare item).2 := by
  have htaken : r.takeBlock.2.regions = r.regions := by
    unfold takeBlock
    dsimp only
    split
    · rfl
    · cases r.offered? <;> rfl
  refine of_eq (r.scopes_declare item) ?_
  rw [← htaken]
  unfold CommentReader.declare
  dsimp only
  split <;> rfl

end Shifts

end CommentReader

/-- Whether a node has a scope to itself. -/
def Node.isScope : Node → Bool
  | .scope _ | .body _ _ _ => true
  | _ => false

namespace Recorder

/-! ## The steps of a recorder -/

/-- One step of a recorder. -/
inductive Step : Recorder → Recorder → Prop
  | comment (r : Recorder) (previous : Option Token) (t : Token) :
      Step r (r.readComment previous t)
  /-- A comment in a function body. -/
  | remark (r : Recorder) (t : Token) : Step r (r.readInBody t)
  | declare (r : Recorder) (item : Item) : Step r (r.declare item).2
  | enter (r : Recorder) : Step r r.enterScope
  /-- A scope is left that is not the one of the file. -/
  | leave {r : Recorder} : 1 < r.reader.scopes.length → Step r r.leaveScope
  /-- Anything that concerns neither scopes nor regions. -/
  | other {r r' : Recorder} :
      r'.reader.regions = r.reader.regions → r'.reader.scopes = r.reader.scopes →
      r'.lastScope = r.lastScope → Step r r'

/-- What a recorder can come to. -/
def Reaches : Recorder → Recorder → Prop := Relation.ReflTransGen Step

/-- The open regions lie in the open scopes, both with the innermost first. -/
structure Regional (r : Recorder) : Prop where
  scopes : r.reader.scopes.Pairwise (· > ·)
  bound : ∀ scope ∈ r.reader.scopes, scope ≤ r.lastScope
  nonempty : r.reader.scopes ≠ []
  sorted : (r.reader.regions.map Region.scope).Pairwise (· ≥ ·)
  within : ∀ region ∈ r.reader.regions, region.scope ∈ r.reader.scopes

theorem lt_of_mem_dropWhile {regions : List Region} {current : Int}
    (hsorted : (regions.map Region.scope).Pairwise (· ≥ ·))
    (hle : ∀ region ∈ regions, region.scope ≤ current) {region : Region}
    (h : region ∈ regions.dropWhile fun region => region.scope == current) :
    region.scope < current := by
  induction regions with
  | nil => simp at h
  | cons first rest ih =>
      obtain ⟨hfirst, hrest⟩ := List.pairwise_cons.1 hsorted
      obtain ⟨hfirst', hrest'⟩ := List.forall_mem_cons.1 hle
      rw [List.dropWhile_cons] at h
      split at h
      · exact ih hrest hrest' h
      next hne =>
        have hlt : first.scope < current := by
          simp only [beq_iff_eq] at hne
          omega
        rcases List.mem_cons.1 h with rfl | hmem
        · exact hlt
        · have hge := hfirst region.scope (List.mem_map_of_mem hmem)
          omega

namespace Regional

variable {r r' : Recorder} (hr : r.Regional)

include hr

theorem mem_current : r.reader.currentScope ∈ r.reader.scopes := by
  unfold CommentReader.currentScope
  cases hscopes : r.reader.scopes with
  | nil => exact (hr.nonempty hscopes).elim
  | cons scope scopes => simp

theorem le_current {scope : Int} (h : scope ∈ r.reader.scopes) :
    scope ≤ r.reader.currentScope := by
  have hsorted := hr.scopes
  unfold CommentReader.currentScope
  cases hscopes : r.reader.scopes with
  | nil => exact (hr.nonempty hscopes).elim
  | cons first rest =>
      rw [hscopes] at h hsorted
      rcases List.mem_cons.1 h with rfl | hrest
      · exact Int.le_refl _
      · exact Int.le_of_lt ((List.pairwise_cons.1 hsorted).1 scope hrest)

theorem shifts (h : r.reader.Shifts r'.reader)
    (hlast : r'.lastScope = r.lastScope) : r'.Regional := by
  obtain ⟨opened, kept, hregions, hkept, hopened⟩ := h.regions
  have hold (region : Region) (hregion : region ∈ kept) :
      region.scope ∈ r.reader.scopes :=
    hr.within region (hkept.subset hregion)
  refine ⟨h.scopes ▸ hr.scopes, hlast ▸ h.scopes ▸ hr.bound,
    h.scopes ▸ hr.nonempty, ?_, ?_⟩
  · rw [hregions, List.map_append, List.pairwise_append]
    refine ⟨?_, hr.sorted.sublist (hkept.sublist.map _), ?_⟩
    · rw [List.pairwise_map]
      apply List.pairwise_of_forall_mem_list
      intro region hregion region' hregion'
      exact Int.le_of_eq
        ((hopened region' hregion').trans (hopened region hregion).symm)
    · intro scope hscope scope' hscope'
      obtain ⟨region, hregion, rfl⟩ := List.mem_map.1 hscope
      obtain ⟨region', hregion', rfl⟩ := List.mem_map.1 hscope'
      rw [hopened region hregion]
      exact hr.le_current (hold region' hregion')
  · intro region hregion
    rw [h.scopes]
    rw [hregions] at hregion
    rcases List.mem_append.1 hregion with hnew | hkept'
    · rw [hopened region hnew]
      exact hr.mem_current
    · exact hold region hkept'

theorem enterScope : r.enterScope.Regional where
  scopes := by
    refine List.pairwise_cons.2 ⟨?_, hr.scopes⟩
    intro scope hscope
    exact Int.lt_add_one_of_le (hr.bound scope hscope)
  bound := by
    intro scope hscope
    rcases List.mem_cons.1 hscope with rfl | hold
    · exact Int.le_refl _
    · exact Int.le_trans (hr.bound scope hold)
        (Int.le_of_lt (Int.lt_add_one_of_le (Int.le_refl _)))
  nonempty := by simp [Recorder.enterScope, CommentReader.enterScope]
  sorted := hr.sorted
  within region hregion := List.mem_cons_of_mem _ (hr.within region hregion)

theorem le_current_of_mem {region : Region} (h : region ∈ r.reader.regions) :
    region.scope ≤ r.reader.currentScope :=
  hr.le_current (hr.within region h)

theorem lt_current_of_mem_leaveScope {region : Region}
    (h : region ∈ r.leaveScope.reader.regions) :
    region.scope < r.reader.currentScope :=
  lt_of_mem_dropWhile hr.sorted (fun _ => hr.le_current_of_mem) h

theorem leaveScope (hlength : 1 < r.reader.scopes.length) :
    r.leaveScope.Regional where
  scopes := hr.scopes.sublist (List.tail_sublist _)
  bound scope hscope := hr.bound scope (List.mem_of_mem_tail hscope)
  nonempty := by
    intro hnil
    have htail : r.reader.scopes.tail.length = 0 := by
      change r.reader.scopes.tail = [] at hnil
      rw [hnil]
      rfl
    rw [List.length_tail] at htail
    omega
  sorted := hr.sorted.sublist ((List.dropWhile_sublist _).map _)
  within region hregion := by
    have hlt := hr.lt_current_of_mem_leaveScope hregion
    have hopen := hr.within region ((List.dropWhile_sublist _).subset hregion)
    change region.scope ∈ r.reader.scopes.tail
    unfold CommentReader.currentScope at hlt
    cases hscopes : r.reader.scopes with
    | nil => exact (hr.nonempty hscopes).elim
    | cons scope scopes =>
        rw [hscopes] at hlt hopen
        rcases List.mem_cons.1 hopen with hsame | hrest
        · rw [hsame] at hlt
          exact (Int.lt_irrefl _ hlt).elim
        · exact hrest

/-- The innermost region decides: if it does not lie in the current scope, then
no region does. -/
theorem activeGroup?_eq : r.reader.activeGroup? =
    (r.reader.regions.find? fun region =>
      region.scope == r.reader.currentScope).map Region.group := by
  have hsorted := hr.sorted
  have hle := @le_current_of_mem r hr
  unfold CommentReader.activeGroup?
  cases hregions : r.reader.regions with
  | nil => rfl
  | cons first rest =>
      rw [hregions] at hsorted hle
      dsimp only
      by_cases hfirst : first.scope = r.reader.currentScope
      · rw [if_pos hfirst, List.find?_cons_of_pos (by simpa using hfirst)]
        rfl
      · have hnone :
            rest.find? (fun region => region.scope == r.reader.currentScope) =
              none := by
          rw [List.find?_eq_none]
          intro region hregion
          have hfirst' := hle List.mem_cons_self
          have hrest :=
            (List.pairwise_cons.1 hsorted).1 region.scope
              (List.mem_map_of_mem hregion)
          simp only [beq_iff_eq]
          omega
        rw [if_neg hfirst, List.find?_cons_of_neg (by simpa using hfirst), hnone]
        rfl

end Regional

theorem Regional.start (c : Catalog) (file source : Bytes) (tokens : List Token) :
    (start c file source tokens).Regional := by
  constructor <;> simp [Recorder.start, CommentReader.ofCatalog]

theorem shifts_readInBody (r : Recorder) (t : Token) :
    r.reader.Shifts (r.readInBody t).reader := by
  unfold readInBody
  split
  · split
    · exact .readBack _ _ _ _ _
    · exact .refl _
  · exact .refl _

theorem shifts_readComment (r : Recorder) (previous : Option Token) (t : Token) :
    r.reader.Shifts (r.readComment previous t).reader := by
  unfold readComment
  split
  · split
    · exact .readBack _ _ _ _ _
    · exact .of_eq rfl rfl
  · exact .readAhead _ _ _ _ _

theorem lastScope_readInBody (r : Recorder) (t : Token) :
    (r.readInBody t).lastScope = r.lastScope := by
  unfold readInBody
  split
  · split <;> rfl
  · rfl

theorem lastScope_readComment (r : Recorder) (previous : Option Token)
    (t : Token) : (r.readComment previous t).lastScope = r.lastScope := by
  unfold readComment
  split
  · split <;> rfl
  · rfl

theorem Step.regional {r r' : Recorder} (h : r.Step r') (hr : r.Regional) :
    r'.Regional := by
  cases h with
  | comment previous t =>
      exact hr.shifts (r.shifts_readComment previous t)
        (r.lastScope_readComment previous t)
  | remark t => exact hr.shifts (r.shifts_readInBody t) (r.lastScope_readInBody t)
  | declare item => exact hr.shifts (.declare r.reader item) rfl
  | enter => exact hr.enterScope
  | leave hlength => exact hr.leaveScope hlength
  | other hregions hscopes hlast => exact hr.shifts (.of_eq hscopes hregions) hlast

theorem Reaches.regional {r r' : Recorder} (h : r.Reaches r') (hr : r.Regional) :
    r'.Regional := by
  induction h with
  | refl => exact hr
  | tail _ hstep ih => exact hstep.regional ih

/-! ## The walk -/

/-- A recorder goes on step by step.  In the end the scopes are the same, and
the regions that are new lie in the current one. -/
def Moves (r r' : Recorder) : Prop :=
  r.Regional → r.Reaches r' ∧ r.reader.Shifts r'.reader

namespace Moves

theorem refl (r : Recorder) : r.Moves r := fun _ => ⟨.refl, .refl _⟩

theorem trans {r r' r'' : Recorder} (h : r.Moves r') (h' : r'.Moves r'') :
    r.Moves r'' := by
  intro hr
  obtain ⟨hreaches, hshifts⟩ := h hr
  obtain ⟨hreaches', hshifts'⟩ := h' (hreaches.regional hr)
  exact ⟨.trans hreaches hreaches', hshifts.trans hshifts'⟩

theorem of_step {r r' : Recorder} (h : r.Step r')
    (hshifts : r.reader.Shifts r'.reader) : r.Moves r' :=
  fun _ => ⟨.single h, hshifts⟩

theorem of_eq {r r' : Recorder}
    (hregions : r'.reader.regions = r.reader.regions)
    (hscopes : r'.reader.scopes = r.reader.scopes)
    (hlast : r'.lastScope = r.lastScope) : r.Moves r' :=
  of_step (.other hregions hscopes hlast) (.of_eq hscopes hregions)

theorem flush (r : Recorder) (offset : Nat) : r.Moves (r.flush offset) := by
  refine flush_of_steps refl (fun h h' => h.trans h') ?_ ?_ ?_ r offset
  · exact fun r offset => of_eq rfl rfl rfl
  · exact fun r t => of_step (.remark r t) (r.shifts_readInBody t)
  · exact fun r previous t =>
      of_step (.comment r previous t) (r.shifts_readComment previous t)

/-- After a scope has been left the regions are some of those before it. -/
theorem scope {r r' : Recorder} (h : r.enterScope.Moves r') (hr : r.Regional) :
    r.Reaches r'.leaveScope ∧ r'.leaveScope.reader.scopes = r.reader.scopes ∧
      r'.leaveScope.reader.regions <:+ r.reader.regions := by
  obtain ⟨hreaches, hscopes, opened, kept, hregions, hkept, hopened⟩ :=
    h hr.enterScope
  have hlength : 1 < r'.reader.scopes.length := by
    have hpos := List.length_pos_of_ne_nil hr.nonempty
    rw [hscopes]
    change 1 < ((r.lastScope + 1) :: r.reader.scopes).length
    rw [List.length_cons]
    omega
  have hcurrent : r'.reader.currentScope = r.lastScope + 1 := by
    unfold CommentReader.currentScope
    rw [hscopes]
    rfl
  have hclosed : r'.leaveScope.reader.regions = kept := by
    change r'.reader.regions.dropWhile (fun region =>
      region.scope == r'.reader.currentScope) = kept
    rw [hregions, hcurrent, List.dropWhile_append_of_pos]
    · cases kept with
      | nil => rfl
      | cons first rest =>
          have hle :=
            hr.bound _ (hr.within first (hkept.subset List.mem_cons_self))
          apply List.dropWhile_cons_of_neg
          simp only [beq_iff_eq]
          omega
    · intro region hregion
      exact beq_iff_eq.2 (hopened region hregion)
  refine ⟨?_, congrArg List.tail hscopes, hclosed ▸ hkept⟩
  exact (Relation.ReflTransGen.head (.enter r) hreaches).tail (.leave hlength)

theorem body {r r' : Recorder} {item : Option ItemId} {line : Nat}
    (h : (r.enterBody item line).Moves r') (hr : r.Regional) :
    r.Reaches (r'.leaveBody r) ∧ (r'.leaveBody r).reader.scopes = r.reader.scopes ∧
      (r'.leaveBody r).reader.regions <:+ r.reader.regions := by
  rw [Passes.enterBody_eq] at h
  obtain ⟨hreaches, hscopes, hregions⟩ :=
    h.scope ⟨hr.scopes, hr.bound, hr.nonempty, hr.sorted, hr.within⟩
  exact ⟨(Relation.ReflTransGen.head (.other rfl rfl rfl) hreaches).tail
    (.other rfl rfl rfl), hscopes, hregions⟩

theorem course {sound : Prop} {r r' : Recorder} (h : Course sound r r') :
    r.Moves r' := by
  induction h with
  | aside haside _ =>
      refine of_eq ?_ ?_ haside.lastScope
      · rw [haside.reader]
      · rw [haside.reader]
  | trans _ _ ih ih' => exact ih.trans ih'
  | flush offset _ => exact flush _ offset
  | @declare r item _ _ => exact of_step (.declare r item) (.declare r.reader item)
  | discard r => exact of_eq rfl rfl rfl
  | note r notice => exact of_eq rfl rfl rfl
  | warn r pos what => exact of_eq rfl rfl rfl
  | scope _ ih =>
      intro hr
      obtain ⟨hreaches, hscopes, hregions⟩ := ih.scope hr
      exact ⟨hreaches, hscopes, [], _, rfl, hregions, by simp⟩

theorem walk (node : Node) (r : Recorder) (owner : Option ItemId)
    (table : Option TableId) : r.Moves (Recorder.walk owner table r node).2 := by
  have hcourse : Course False r (Recorder.walk owner table r node).2 :=
    (Builds.walk node False.elim False.elim).course
  exact course hcourse

theorem walkAll (nodes : List Node) (r : Recorder) (owner : Option ItemId)
    (table : Option TableId) :
    r.Moves (Recorder.walkAll owner table r nodes).2 := by
  have hcourse : Course False r (Recorder.walkAll owner table r nodes).2 :=
    (Builds.walkAll nodes False.elim False.elim).course
  exact course hcourse

theorem suffix_of_isScope {node : Node} (hnode : node.isScope = true)
    {r : Recorder} (hr : r.Regional) (owner : Option ItemId)
    (table : Option TableId) :
    (Recorder.walk owner table r node).2.reader.regions <:+ r.reader.regions := by
  cases node with
  | scope inner =>
      rw [Recorder.walk]
      exact (scope (walkAll inner _ none none) hr).2.2
  | body owned line inner =>
      rw [Recorder.walk]
      exact (body (walkAll inner _ none none) hr).2.2
  | _ => simp [Node.isScope] at hnode

end Moves

/-- Recording a source goes step by step, and so does the walk of every node on
the way: it keeps the scopes, may close some innermost regions, and opens others
in the current scope.  `@{` opens one there, `@}` closes the innermost one.

In every state on the way the scopes of the open regions do not decrease towards
the innermost one and are open themselves; so the active group is the one of the
innermost region of the current scope, and leaving the scope leaves none of its
regions open.  After a scope or a function body, complete or not, no region is
open that was not open before it, and when the source has been read without an
error, none is open at all. -/
theorem regions_follow_scopes (c : Catalog) (file source : Bytes) :
    let begun :=
      { c with declarations := c.declarations.addSource ⟨file, source⟩ }
    let tokens := tokenize source
    let outline := Outline.ofSource source tokens
    let first := start begun file source tokens
    first.Reaches (first.record outline) ∧
      (∀ r, first.Reaches r →
        (r.reader.regions.map Region.scope).Pairwise (· ≥ ·) ∧
          (∀ region ∈ r.reader.regions, region.scope ∈ r.reader.scopes) ∧
          r.reader.activeGroup? =
            (r.reader.regions.find? fun region =>
              region.scope == r.reader.currentScope).map Region.group ∧
          ∀ region ∈ r.leaveScope.reader.regions,
            region.scope ≠ r.reader.currentScope) ∧
      (∀ r, first.Reaches r → ∀ owner table node,
        r.Reaches (walk owner table r node).2 ∧
          r.reader.Shifts (walk owner table r node).2.reader ∧
          (Node.isScope node = true →
            (walk owner table r node).2.reader.regions <:+ r.reader.regions)) ∧
      (∀ s : Reading,
        s.openRegion.reader.regions =
            ((s.place.group.or (s.block?.bind (·.group))).map
              (⟨s.reader.currentScope, ·⟩)).toList ++ s.reader.regions ∧
          s.closeRegion.reader.regions = s.reader.regions.tail) ∧
      ((c.readSource file source).1 = none →
        (recordSource begun file source tokens outline).reader.regions = []) := by
  intro begun tokens outline first
  have hstart : first.Regional := .start begun file source tokens
  have hmoves : first.Moves (first.record outline) :=
    .walkAll outline.nodes first none none
  obtain ⟨hreaches, hshifts⟩ := hmoves hstart
  refine ⟨hreaches, ?_, ?_,
    fun s => ⟨s.regions_openRegion, s.regions_closeRegion⟩, ?_⟩
  · intro r hr
    have hregional := hr.regional hstart
    refine ⟨hregional.sorted, hregional.within, hregional.activeGroup?_eq, ?_⟩
    intro region hregion
    exact Int.ne_of_lt (hregional.lt_current_of_mem_leaveScope hregion)
  · intro r hr owner table node
    have hregional := hr.regional hstart
    obtain ⟨hwalk, hopened⟩ := Moves.walk node r owner table hregional
    exact ⟨hwalk, hopened,
      fun hnode => Moves.suffix_of_isScope hnode hregional owner table⟩
  · intro hread
    have herror : outline.error = none := (Catalog.readSource_eq_none.1 hread).2
    -- The only scope that is still open is the one of the file, so all regions
    -- belong to it.
    have hfile (region : Region)
        (hregion : region ∈ (first.record outline).reader.regions) :
        region.scope = 0 := by
      have hopen := (hreaches.regional hstart).within region hregion
      rw [hshifts.scopes] at hopen
      exact List.mem_singleton.1 hopen
    unfold recordSource
    rw [herror]
    change (first.record outline).reader.regions.dropWhile
      (fun region => region.scope == 0) = []
    rw [List.dropWhile_eq_nil_iff]
    intro region hregion
    exact beq_iff_eq.2 (hfile region hregion)

/-- Two regions in the file, and a block that closes the second of them and
opens one that ends with the block. -/
private def regionSource : Bytes :=
  utf8 ("--! \\group g @\x7b\nx = 1\n--! \\group k @\x7b\nw = 2\ndo\n" ++
    "--! @\x7d\n--! \\group h @\x7b\ny = 3\nend\nz = 4\n")

private def regionStart : Recorder :=
  let c : Catalog := .empty .default
  start { c with declarations := c.declarations.addSource ⟨[], regionSource⟩ } []
    regionSource (tokenize regionSource)

private def regionOutline : Outline :=
  Outline.ofSource regionSource (tokenize regionSource)

/-- Three groups are active in turn, and the first region is open up to the
end. -/
theorem regions_follow_scopes_sample :
    ((regionStart.record regionOutline).reader.regions = [⟨0, 0⟩] ∧
      (regionStart.record regionOutline).catalog.docs.listedGroups = [0, 1, 2] ∧
      ((Catalog.empty .default).readSource [] regionSource).1 = none) ∧
    (regionStart.record regionOutline).reader.activeGroup? = some 0 ∧
      (recordSource regionStart.catalog [] regionSource (tokenize regionSource)
        regionOutline).reader.regions = [] := by
  have hrun : (regionStart.record regionOutline).reader.regions = [⟨0, 0⟩] ∧
      (regionStart.record regionOutline).catalog.docs.listedGroups = [0, 1, 2] ∧
      ((Catalog.empty .default).readSource [] regionSource).1 = none := by
    decide +kernel
  obtain ⟨hreaches, hstates, -, -, hclosed⟩ :=
    regions_follow_scopes (.empty .default) [] regionSource
  obtain ⟨-, -, hactive, -⟩ := hstates _ hreaches
  refine ⟨hrun, hactive.trans ?_, hclosed hrun.2.2⟩
  decide +kernel

end Recorder

end LuaGloss

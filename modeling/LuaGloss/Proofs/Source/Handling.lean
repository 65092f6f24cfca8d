import LuaGloss.Proofs.Source.LineComments
import LuaGloss.Proofs.Source.Walk
import LuaGloss.Proofs.Syntax.Growth
import LuaGloss.Proofs.Syntax.Trail
import Mathlib.Data.List.Sort

/-!
# Comments are handed over once

Going through an outline hands comments over in runs: a run is taken from the
comments to come, and its comments are read one after the other.  The runs that
are handed over and those that are left make up the comments of the source.

The runs are handed over in the order in which the outline marks their offsets,
and at the end no run is left at an offset where comments have to be read.
-/

namespace LuaGloss

open LuaGloss.Node

/-! ## Runs of comments -/

namespace CommentRuns

/-- The comments of all runs. -/
def tokens (runs : CommentRuns) : List Token := runs.flatMap (·.2)

def offsets (runs : CommentRuns) : List Nat := runs.map (·.1)

theorem nodup_offsets_of_perm {runs more : CommentRuns} (h : runs.Perm more)
    (hmore : more.offsets.Nodup) : runs.offsets.Nodup :=
  (h.map Prod.fst).nodup_iff.2 hmore

theorem offsets_collect (tokens pending : List Token) :
    (collect pending tokens).offsets.Sublist (tokens.map (·.pos.offset)) := by
  fun_induction collect pending tokens with
  | case1 => exact .slnil
  | case2 pending t ts _ ih => exact ih.cons _
  | case3 pending t ts _ _ ih => exact ih.cons _
  | case4 pending t ts _ _ ih => exact ih.cons_cons _

theorem tokens_collect (tokens pending : List Token) :
    (collect pending tokens).tokens.Sublist
      (pending ++ tokens.filter (·.kind.isComment)) := by
  fun_induction collect pending tokens with
  | case1 pending => exact List.nil_sublist _
  | case2 pending t ts ht ih =>
      rw [List.filter_cons, if_pos ht]
      simpa using ih
  | case3 pending t ts ht _ ih =>
      rw [List.filter_cons, if_neg ht]
      exact ih.trans (List.sublist_append_right _ _)
  | case4 pending t ts ht _ ih =>
      rw [List.filter_cons, if_neg ht]
      exact ih.append_left pending

theorem mem_collect (before : List Token) {comments : List Token}
    (hcomments : ∀ t ∈ comments, t.kind.isComment = true) {u : Token}
    (hu : u.kind.isComment = false) (hne : comments ≠ [])
    (pending after : List Token) :
    ∃ run, (u.pos.offset, run) ∈
      collect pending (before ++ (comments ++ u :: after)) ∧ comments ⊆ run := by
  induction before generalizing pending with
  | nil =>
      refine ⟨pending ++ comments, ?_, List.subset_append_right _ _⟩
      rw [List.nil_append,
        collect_append hcomments hu pending after (by simp [hne])]
      exact List.mem_cons_self
  | cons t before ih =>
      rw [List.cons_append, collect]
      split
      · exact ih _
      · split
        · exact ih []
        · obtain ⟨run, hrun, hsub⟩ := ih []
          exact ⟨run, List.mem_cons_of_mem _ hrun, hsub⟩

theorem perm_of_lookup {runs : CommentRuns} (hruns : runs.offsets.Nodup)
    {offset : Nat} {run : List Token} (h : runs.lookup offset = some run) :
    ((offset, run) :: runs.filter (·.1 != offset)).Perm runs := by
  obtain ⟨before, after, rfl, -⟩ := List.lookup_eq_some_iff.1 h
  have hother : ∀ other ∈ before ++ after, other.1 ≠ offset := by
    intro other hother heq
    have hnodup := nodup_offsets_of_perm List.perm_middle.symm hruns
    have hmem : other.1 ∈ offsets (before ++ after) := List.mem_map_of_mem hother
    exact (List.nodup_cons.1 hnodup).1 (heq ▸ hmem)
  have hrest : (before ++ (offset, run) :: after).filter (·.1 != offset) =
      before ++ after := by
    rw [List.filter_append, List.filter_cons_of_neg (by simp),
      ← List.filter_append]
    exact List.filter_eq_self.2 fun other hmem => by simpa using hother other hmem
  rw [hrest]
  exact List.perm_middle.symm

theorem lookup_eq_none_of_sublist {runs more : CommentRuns}
    (h : runs.Sublist more) {offset : Nat} (hmore : more.lookup offset = none) :
    runs.lookup offset = none := by
  rw [List.lookup_eq_none_iff] at hmore ⊢
  exact fun run hrun => hmore run (h.subset hrun)

end CommentRuns

namespace Recorder

/-! ## Handing comments over -/

/-- The runs of comments that are handed over on the way from one recorder to
another, in this order.  Each comment of a run is read, warned about or skipped;
whatever else happens on the way concerns no comment. -/
inductive Handles : Recorder → CommentRuns → Recorder → Prop
  | run {r r' : Recorder} {offset : Nat} {run : List Token} :
      r.comments.lookup offset = some run →
      TreatsAll { r with comments := r.comments.filter (·.1 != offset) } none run
        r' →
      Handles r [(offset, run)] r'
  | aside {r r' : Recorder} : r.Aside r' → Handles r [] r'
  | declare (r : Recorder) (item : Item) : Handles r [] (r.declare item).2
  | discard (r : Recorder) : Handles r [] r.discard
  | note (r : Recorder) (notice : Notice) :
      Handles r [] (r.mapCatalog (·.note notice))
  | warn (r : Recorder) (pos : Pos) (what : Warning) :
      Handles r [] (r.warn pos what)
  | enterScope (r : Recorder) : Handles r [] r.enterScope
  | leaveScope (r : Recorder) : Handles r [] r.leaveScope
  | leaveFile (r : Recorder) : Handles r [] r.leaveFile
  | trans {r r' r'' : Recorder} {runs more : CommentRuns} :
      Handles r runs r' → Handles r' more r'' →
      Handles r (runs ++ more) r''

namespace Handles

variable {r r' r'' : Recorder} {runs more : CommentRuns}

theorem refl (r : Recorder) : Handles r [] r := .aside ⟨rfl, rfl, rfl, rfl, rfl⟩

theorem andThen (h : Handles r [] r') (h' : Handles r' runs r'') :
    Handles r runs r'' := h.trans h'

theorem flush (r : Recorder) (offset : Nat) :
    Handles r ((r.comments.lookup offset).map (offset, ·)).toList
      (r.flush offset) := by
  cases hrun : r.comments.lookup offset with
  | none =>
      unfold Recorder.flush
      rw [hrun]
      exact .refl r
  | some run => exact .run hrun (.flush hrun)

/-- What is handed over and what is left are the comments that there were. -/
theorem perm (h : Handles r runs r') (hr : r.comments.offsets.Nodup) :
    (runs ++ r'.comments).Perm r.comments := by
  induction h with
  | run hrun htreats =>
      rw [htreats.comments]
      exact CommentRuns.perm_of_lookup hr hrun
  | aside haside =>
      rw [haside.comments]
      exact .refl _
  | @trans r r' r'' runs more _ _ ih ih' =>
      have hleft := ih hr
      have hnodup := CommentRuns.nodup_offsets_of_perm hleft hr
      have hmore := ih' (hnodup.sublist ((List.sublist_append_right _ _).map _))
      rw [List.append_assoc]
      exact (hmore.append_left runs).trans hleft
  | _ => exact .refl _

theorem comments_sublist (h : Handles r runs r') :
    r'.comments.Sublist r.comments := by
  induction h with
  | run _ htreats =>
      rw [htreats.comments]
      exact List.filter_sublist
  | aside haside => rw [haside.comments]
  | trans _ _ ih ih' => exact ih'.trans ih
  | _ => exact .refl _

theorem length_le (h : Handles r runs r') :
    runs.length + r'.comments.length ≤ r.comments.length := by
  have htaken {comments : CommentRuns} {offset : Nat} {run : List Token}
      (hrun : comments.lookup offset = some run) :
      1 + (comments.filter (·.1 != offset)).length ≤ comments.length := by
    obtain ⟨before, after, rfl, -⟩ := List.lookup_eq_some_iff.1 hrun
    have hlt :=
      List.length_filter_lt_length_iff_exists
        (p := fun other : Nat × List Token => other.1 != offset)
        (l := before ++ (offset, run) :: after)
    have hex := hlt.2 ⟨(offset, run), by simp, by simp⟩
    omega
  induction h with
  | run hrun htreats =>
      rw [htreats.comments]
      exact htaken hrun
  | aside haside =>
      rw [haside.comments]
      simp
  | trans _ _ ih ih' =>
      rw [List.length_append]
      omega
  | _ => exact Nat.le_of_eq (Nat.zero_add _)

/-- A course on which no comment is taken away hands nothing over. -/
theorem of_course (h : Course False r r') (hstays : r.Stays r') :
    Handles r [] r' := by
  obtain ⟨runs, hruns⟩ : ∃ runs, Handles r runs r' := by
    clear hstays
    induction h with
    | aside haside _ => exact ⟨_, .aside haside⟩
    | trans _ _ ih ih' =>
        obtain ⟨runs, hruns⟩ := ih
        obtain ⟨more, hmore⟩ := ih'
        exact ⟨_, hruns.trans hmore⟩
    | flush offset _ => exact ⟨_, .flush _ offset⟩
    | declare _ _ => exact ⟨_, .declare _ _⟩
    | discard r => exact ⟨_, .discard r⟩
    | note r notice => exact ⟨_, .note r notice⟩
    | warn r pos what => exact ⟨_, .warn r pos what⟩
    | scope _ ih =>
        obtain ⟨runs, hruns⟩ := ih
        exact ⟨_, (Handles.enterScope _).trans (hruns.trans (.leaveScope _))⟩
  have hlength := hruns.length_le
  rw [hstays.comments] at hlength
  obtain rfl : runs = [] := List.length_eq_zero_iff.1 (by omega)
  exact hruns

theorem of_finds {ids : List (Option ItemId)} (h : Finds False r ids r') :
    Handles r [] r' := of_course h.course h.stays

end Handles

/-! ## The order of the runs -/

def Delivered (r : Recorder) (offsets : List Nat) : Prop :=
  ∀ offset ∈ offsets, r.comments.lookup offset = none

/-- Runs are handed over in the order of the offsets `marks`, and those at the
offsets `due` are not left. -/
structure Follows (r : Recorder) (marks due : List Nat) (r' : Recorder) :
    Prop where
  handles : ∃ runs : CommentRuns, Handles r runs r' ∧ runs.offsets.Sublist marks
  delivered : r'.Delivered due

namespace Follows

variable {r r' r'' : Recorder} {marks marks' due due' : List Nat}

theorem comments_sublist (h : r.Follows marks due r') :
    r'.comments.Sublist r.comments := by
  obtain ⟨runs, hruns, -⟩ := h.handles
  exact hruns.comments_sublist

theorem of_handles (h : Handles r [] r') (marks : List Nat) :
    r.Follows marks [] r' :=
  ⟨⟨[], h, List.nil_sublist _⟩, by simp [Delivered]⟩

theorem trans (h : r.Follows marks due r') (h' : r'.Follows marks' due' r'') :
    r.Follows (marks ++ marks') (due ++ due') r'' := by
  obtain ⟨runs, hruns, hmarks⟩ := h.handles
  obtain ⟨more, hmore, hmarks'⟩ := h'.handles
  refine ⟨⟨runs ++ more, hruns.trans hmore, ?_⟩, ?_⟩
  · unfold CommentRuns.offsets
    rw [List.map_append]
    exact hmarks.append hmarks'
  · intro offset hoffset
    rcases List.mem_append.1 hoffset with hleft | hright
    · exact CommentRuns.lookup_eq_none_of_sublist hmore.comments_sublist
        (h.delivered offset hleft)
    · exact h'.delivered offset hright

theorem between {before after : Recorder} (h : Handles before [] r)
    (hmid : r.Follows marks due r') (h' : Handles r' [] after) :
    before.Follows marks due after := by
  have hall := ((of_handles h []).trans hmid).trans (of_handles h' [])
  simpa using hall

theorem mono (h : r.Follows marks due r') (hdue : due' ⊆ due) :
    r.Follows marks due' r' :=
  ⟨h.handles, fun offset hoffset => h.delivered offset (hdue hoffset)⟩

theorem flush (r : Recorder) (offset : Nat) :
    r.Follows [offset] [offset] (r.flush offset) := by
  refine ⟨⟨_, .flush r offset, ?_⟩, ?_⟩
  · cases r.comments.lookup offset with
    | none => exact List.nil_sublist _
    | some run => exact .refl _
  · have hgone : (r.comments.filter (·.1 != offset)).lookup offset = none :=
      List.lookup_eq_none_iff.2 fun run hrun =>
        bne_comm.trans (List.mem_filter.1 hrun).2
    intro other hother
    obtain rfl := List.mem_singleton.1 hother
    rw [comments_flush]
    exact hgone

end Follows

end Recorder

/-- The offsets at which comments have to be read in nodes, where `isRecorded`
says whether the entries of the table constructor are recorded that the nodes
are inside of. -/
def Node.dues (isRecorded : Bool) (nodes : List Node) : List Nat :=
  offsetsIn nodes ++ if isRecorded then entryStops nodes else []

namespace Recorder.Follows

variable {r r' : Recorder}

theorem within {node : Node} {inner : List Node} {due : List Nat}
    (h : r.Follows (marksAll inner) due r') (hdue : offsetsIn inner ⊆ due)
    (hmarks : node.marks = marksAll inner)
    (hoffsets : node.offsets = offsetsIn inner)
    (hstops : entryStops [node] = []) (isRecorded : Bool) :
    r.Follows node.marks (dues isRecorded [node]) r' := by
  rw [hmarks]
  refine h.mono ?_
  rw [dues, offsetsIn, offsetsIn, hoffsets, hstops, ite_self, List.append_nil,
    List.append_nil]
  exact hdue

theorem offsetsIn_subset_dues (isRecorded : Bool) (inner : List Node) :
    offsetsIn inner ⊆ dues isRecorded inner :=
  List.subset_append_left _ _

mutual

theorem walk (node : Node) (r : Recorder) (owner : Option ItemId)
    (table : Option TableId) :
    r.Follows node.marks (dues table.isSome [node])
      (Recorder.walk owner table r node).2 := by
  cases node with
  | comments offset =>
      rw [Recorder.walk]
      refine (flush r offset).mono ?_
      simp [dues, offsetsIn, offsets, entryStops]
  | tableComments offset =>
      rw [Recorder.walk]
      cases table with
      | none => exact of_handles (.refl r) _
      | some table => exact flush r offset
  | tableEnd =>
      rw [Recorder.walk]
      cases table with
      | none => exact of_handles (.refl r) _
      | some table => exact of_handles (.discard r) _
  | discard =>
      rw [Recorder.walk]
      refine (of_handles (.discard r) _).mono ?_
      simp [dues, offsetsIn, offsets, entryStops]
  | forget =>
      rw [Recorder.walk]
      refine (of_handles (.aside (.withLast r none)) _).mono ?_
      simp [dues, offsetsIn, offsets, entryStops]
  | statement inner =>
      rw [Recorder.walk]
      refine within ?_ (offsetsIn_subset_dues false inner) rfl rfl rfl _
      exact between (.aside (.withLast r none)) (walkAll inner _ none none)
        (.discard _)
  | scope inner =>
      rw [Recorder.walk]
      refine within ?_ (offsetsIn_subset_dues false inner) rfl rfl rfl _
      exact between (.enterScope r) (walkAll inner _ none none) (.leaveScope _)
  | body owned line inner =>
      rw [Recorder.walk]
      refine within ?_ (offsetsIn_subset_dues false inner) rfl rfl rfl _
      have hinner :=
        walkAll inner (r.enterBody (if owned then owner else none) line) none none
      refine between ?_ hinner
        ((Handles.leaveScope _).trans (.aside ⟨rfl, rfl, rfl, rfl, rfl⟩))
      rw [Passes.enterBody_eq]
      refine .andThen ?_ (.enterScope _)
      exact .aside ⟨rfl, rfl, rfl, rfl, rfl⟩
  | table owned inner =>
      rw [Recorder.walk]
      have hinner :=
        walkAll inner (r.newTable (if owned then owner else none)).2 none
          (r.newTable (if owned then owner else none)).1
      exact within (between (.aside (.newTable r _)) hinner (.refl _))
        (offsetsIn_subset_dues _ _) rfl rfl rfl _
  | value inner =>
      rw [Recorder.walk]
      exact within (walkAll inner r owner none) (offsetsIn_subset_dues _ inner)
        rfl rfl rfl _
  | entry head inner init =>
      rw [Recorder.walk]
      refine within ?_ (offsetsIn_subset_dues false inner) rfl rfl rfl _
      refine between (.of_finds (.declareEntry nofun head nofun))
        (walkAll inner (r.declareEntry table head).2
          (r.declareEntry table head).1 none) ?_
      cases init with
      | none => exact .refl _
      | some init => exact .aside (.setInit _ _ init _)
  | locals names inner inits =>
      rw [Recorder.walk]
      refine within ?_ (.refl _) rfl rfl rfl _
      exact between (.of_finds (.declareLocals nofun names)) (walkValues inner _ _)
        (.of_course (.finish nofun inits nofun nofun) (.finish _ _ _ _))
  | assign targets inner inits =>
      rw [Recorder.walk]
      refine within ?_ (.refl _) rfl rfl rfl _
      exact between (.of_finds (.declareTargets nofun targets))
        (walkValues inner _ _)
        (.of_course (.finish nofun inits nofun nofun) (.finish _ _ _ _))
  | function head inner stop =>
      rw [Recorder.walk]
      refine within ?_ (offsetsIn_subset_dues false inner) rfl rfl rfl _
      refine between (.of_finds (.declareStatement nofun head))
        (walkAll inner _ (r.declareStatement head).1 none) ?_
      cases stop with
      | none => exact .refl _
      | some stop => exact .aside (.finishStatement _ _ stop)

theorem walkAll (nodes : List Node) (r : Recorder) (owner : Option ItemId)
    (table : Option TableId) :
    r.Follows (marksAll nodes) (dues table.isSome nodes)
      (Recorder.walkAll owner table r nodes).2 := by
  cases nodes with
  | nil =>
      rw [Recorder.walkAll]
      refine (of_handles (.refl r) _).mono ?_
      simp [dues, offsetsIn, entryStops]
  | cons node nodes =>
      rw [Recorder.walkAll]
      refine ((walk node r owner table).trans
        (walkAll nodes _ owner table)).mono ?_
      have hstops : entryStops (node :: nodes) = entryStops [node] ++
          entryStops nodes := entryStops_append [node] nodes
      cases table with
      | none => simp [dues, offsetsIn]
      | some table =>
          intro offset
          simp only [dues, offsetsIn, hstops, Option.isSome_some, if_true,
            List.mem_append, List.not_mem_nil]
          tauto

theorem walkValues (nodes : List Node) (r : Recorder)
    (ids : List (Option ItemId)) :
    r.Follows (marksAll nodes) (offsetsIn nodes)
      (Recorder.walkValues ids r nodes).2 := by
  cases nodes with
  | nil =>
      rw [Recorder.walkValues]
      exact of_handles (.refl r) _
  | cons node nodes =>
      rw [Recorder.walkValues]
      refine ((walk node r ids.head?.join none).trans
        (walkValues nodes _ ids.tail)).mono ?_
      simp [dues, offsetsIn]

end

end Recorder.Follows

/-- Runs that are handed over in the order of ascending marks are runs of the
source, in their order. -/
theorem Recorder.Handles.sublist {r r' : Recorder} {runs : CommentRuns}
    (h : Handles r runs r') {marks : List Nat} (hmarks : marks.Pairwise (· ≤ ·))
    (hruns : runs.offsets.Sublist marks)
    (hr : r.comments.offsets.Pairwise (· < ·)) : runs.Sublist r.comments := by
  have hperm := h.perm hr.nodup
  have hsubperm : runs.Subperm r.comments :=
    (List.sublist_append_left runs _).subperm.trans hperm.subperm
  have hnodup : runs.offsets.Nodup :=
    (CommentRuns.nodup_offsets_of_perm hperm hr.nodup).sublist
      ((List.sublist_append_left _ _).map _)
  have hstrict : runs.offsets.Pairwise (· < ·) :=
    ((hmarks.sublist hruns).and hnodup).imp fun hle =>
      Nat.lt_of_le_of_ne hle.1 hle.2
  have : Std.Antisymm fun a b : Nat × List Token => a.1 < b.1 :=
    ⟨fun _ _ hlt hgt => absurd hgt (Nat.lt_asymm hlt)⟩
  exact List.sublist_of_subperm_of_pairwise hsubperm
    (List.pairwise_map.1 hstrict) (List.pairwise_map.1 hr)

end LuaGloss

import LuaGloss.Proofs.Comment.Log
import LuaGloss.Proofs.Run.Steps
import LuaGloss.Proofs.Source.Passages
import LuaGloss.Proofs.Source.Walk
import Mathlib.Data.List.Perm.Subperm

/-!
# Every run can be told as a log

Wherever a walk through a source reads comments, it reads them in passages, and
each passage is one entry of the log.  No passage is read twice.  All else that
a run does, up to the last page, retains the faces of blocks.
-/

namespace LuaGloss

namespace Catalog

/-- What happens from one catalog to another can be told as a log of some of the
passages, each at most once, under a vocabulary that stays the same. -/
def Told (vocabulary : Vocabulary) (passages : List (List Bytes))
    (c c' : Catalog) : Prop :=
  c.vocabulary = vocabulary → c'.vocabulary = vocabulary ∧
    ∃ log, Logs vocabulary c log c' ∧ (log.map (·.comments)).Subperm passages

namespace Told

variable {vocabulary : Vocabulary} {passages passages' : List (List Bytes)}
  {c c' c'' : Catalog}

theorem calm (hvocabulary : c'.vocabulary = c.vocabulary)
    (hdocs : c.docs.Retains c'.docs) : Told vocabulary [] c c' :=
  fun hc => ⟨hvocabulary.trans hc, [], .calm hdocs, .refl _⟩

theorem refl (c : Catalog) : Told vocabulary [] c c := calm rfl (.refl _)

theorem trans (h : Told vocabulary passages c c')
    (h' : Told vocabulary passages' c' c'') :
    Told vocabulary (passages ++ passages') c c'' := by
  intro hc
  obtain ⟨hc', log, hlog, hpassages⟩ := h hc
  obtain ⟨hc'', log', hlog', hpassages'⟩ := h' hc'
  refine ⟨hc'', log ++ log', hlog.trans hlog', ?_⟩
  rw [List.map_append]
  exact hpassages.append hpassages'

theorem mono (h : Told vocabulary passages c c')
    (hpassages : passages.Subperm passages') :
    Told vocabulary passages' c c' := by
  intro hc
  obtain ⟨hc', log, hlog, hlogged⟩ := h hc
  exact ⟨hc', log, hlog, hlogged.trans hpassages⟩

theorem of_calm (h : Told vocabulary [] c c') : Told vocabulary passages c c' :=
  h.mono List.nil_subperm

theorem settle (h : Told vocabulary passages c c')
    (h' : Told vocabulary [] c' c'') : Told vocabulary passages c c'' := by
  have hboth := h.trans h'
  rwa [List.append_nil] at hboth

theorem reads {r r' : CommentReader} {own : BlockId} {comments : List Bytes}
    (hc : r.catalog.Consistent) (h : r.Reads own comments r') :
    Told vocabulary [comments] r.catalog r'.catalog := by
  intro hvocabulary
  obtain ⟨hreaches, groups, hgroups, -⟩ := h.written hc
  rw [hvocabulary] at hgroups
  exact ⟨hreaches.vocabulary.trans hvocabulary, [⟨own, comments, groups⟩],
    .comments hc hvocabulary h hgroups, .refl _⟩

theorem foldl {f : Catalog → α → Catalog}
    (hf : ∀ c a, Told vocabulary [] c (f c a)) (as : List α) (c : Catalog) :
    Told vocabulary [] c (as.foldl f c) := by
  induction as generalizing c with
  | nil => exact refl c
  | cons a as ih => exact (hf c a).trans (ih (f c a))

end Told

end Catalog

/-! ## Comments -/

namespace Recorder

open LuaGloss.Token

variable {vocabulary : Vocabulary}

def texts (passages : List (List Token)) : List (List Bytes) :=
  passages.map fun passage => passage.map (·.value)

theorem texts_append (passages passages' : List (List Token)) :
    texts (passages ++ passages') = texts passages ++ texts passages' :=
  List.map_append

theorem told_readInBody {r : Recorder} (hr : r.Ready) (t : Token) :
    Catalog.Told vocabulary
      (texts (([t].filter isRetroactive).map fun t => [t])) r.catalog
      (r.readInBody t).catalog := by
  unfold readInBody
  split
  next item hitem =>
    split
    next hback =>
      have ht : t.isRetroactive = true := (Bool.and_eq_true_iff.1 hback).1
      rw [List.filter_cons_of_pos ht]
      exact .reads hr.reader.catalog
        (.back t.value r.file t.pos (hr.header item hitem))
    next => exact (Catalog.Told.refl _).of_calm
  next => exact (Catalog.Told.refl _).of_calm

theorem told_foldl_readInBody (run : List Token) {r : Recorder} (hr : r.Ready) :
    Catalog.Told vocabulary (texts (passages run)) r.catalog
      (run.foldl readInBody r).catalog := by
  have hback :
      Catalog.Told vocabulary
        (texts ((run.filter isRetroactive).map fun t => [t])) r.catalog
      (run.foldl readInBody r).catalog := by
    induction run generalizing r with
    | nil => exact .refl _
    | cons t ts ih =>
        have hall := (told_readInBody hr t).trans (ih (Leads.readInBody r t hr).2)
        rwa [← texts_append, ← List.map_append, ← List.filter_append] at hall
  exact hback.mono ((back_sublist_passages run).map _).subperm

/-- The recorder has read a passage that began with `reader`; its last comment
so far is `last`. -/
structure HasRead (reader : CommentReader) (before : List Token) (last : Token)
    (r : Recorder) : Prop where
  consistent : reader.catalog.Consistent
  chain : (before ++ [last]).IsChain fun p t => p.isContinuedBy t
  reads : reader.ReadsAhead ((before ++ [last]).map (·.value)) r.reader

namespace HasRead

variable {reader : CommentReader} {before : List Token} {last t : Token}
  {r : Recorder}

theorem told (h : HasRead reader before last r) :
    Catalog.Told vocabulary (texts (passages (before ++ [last])))
      reader.catalog r.catalog := by
  rw [passages_of_isChain (by simp) h.chain]
  exact .reads h.consistent (.ahead h.reads)

theorem first (hr : r.Ready) {previous : Option Token}
    (ht : t.isRetroactive = false)
    (hnew : ∀ p ∈ previous, p.isContinuedBy t = false) :
    HasRead r.reader [] t (r.readComment previous t) where
  consistent := hr.reader.catalog
  chain := .singleton t
  reads := by
    have hfirst : continues previous t = false := by
      cases previous with
      | none => rfl
      | some p => rw [← isContinuedBy_of_ahead ht, hnew p rfl]
    unfold readComment
    rw [if_neg (by simp [ht]), hfirst]
    exact .first t.value r.file t.pos

theorem more (h : HasRead reader before last r)
    (ht : last.isContinuedBy t = true) :
    HasRead reader (before ++ [last]) t (r.readComment (some last) t) where
  consistent := h.consistent
  chain := by
    rw [List.isChain_append]
    exact ⟨h.chain, .singleton t, by simpa using ht⟩
  reads := by
    have hahead := (ahead_of_isContinuedBy ht).2
    have hcontinues : continues (some last) t = true := by
      rw [← isContinuedBy_of_ahead hahead, ht]
    unfold readComment
    rw [if_neg (by simp [hahead]), hcontinues, List.map_append]
    exact .more t.value r.file t.pos h.reads

end HasRead

theorem told_readComment_of_back {r : Recorder} (hr : r.Ready)
    (previous : Option Token) {t : Token} (ht : t.isRetroactive = true) :
    Catalog.Told vocabulary (texts [[t]]) r.catalog
      (r.readComment previous t).catalog := by
  unfold readComment
  rw [if_pos ht]
  split
  next item hitem =>
    exact .reads hr.reader.catalog
      (.back t.value r.file t.pos (hr.last item hitem))
  next =>
    have hwarned :
        Catalog.Told vocabulary [] r.catalog
          (r.warn t.pos .nothingToReferBackTo).catalog :=
      .calm rfl (.of_blocks rfl)
    exact hwarned.of_calm

/-- The rest of a run is read in passages, whether it begins with one or goes on
with one. -/
theorem told_rest (run : List Token) :
    (∀ {r : Recorder} {previous : Option Token}, r.Ready →
      (∀ p ∈ previous, ∀ t ∈ run.head?, p.isContinuedBy t = false) →
        Catalog.Told vocabulary (texts (passages run)) r.catalog
          (r.readComments previous run).catalog) ∧
    ∀ {reader : CommentReader} {before : List Token} {last : Token}
      {r : Recorder}, r.Ready →
      HasRead reader before last r →
        Catalog.Told vocabulary (texts (passages (before ++ [last] ++ run)))
          reader.catalog
          (r.readComments (some last) run).catalog := by
  induction run with
  | nil =>
      refine ⟨fun _ _ => .refl _, ?_⟩
      intro reader before last r _ hread
      rw [List.append_nil]
      exact hread.told
  | cons t ts ih =>
      have hbegin {r : Recorder} {previous : Option Token} (hr : r.Ready)
          (hnew : ∀ p ∈ previous, p.isContinuedBy t = false) :
          Catalog.Told vocabulary (texts (passages (t :: ts))) r.catalog
            (r.readComments previous (t :: ts)).catalog := by
        have hready : (r.readComment previous t).Ready :=
          (Leads.readComment r previous t hr).2
        cases ht : t.isRetroactive with
        | true =>
            rw [passages_cons_of_back ht]
            exact (told_readComment_of_back hr previous ht).trans
              (ih.1 hready (by simp [isContinuedBy_of_back ht]))
        | false => exact ih.2 hready (.first hr ht hnew)
      refine ⟨fun hr hnew => hbegin hr (by simpa using hnew), ?_⟩
      intro reader before last r hr hread
      by_cases hcontinued : last.isContinuedBy t = true
      · rw [List.append_cons]
        exact ih.2 (Leads.readComment r (some last) t hr).2 (hread.more hcontinued)
      · have hnew : ∀ p ∈ some last, p.isContinuedBy t = false := by
          simpa using hcontinued
        rw [passages_append (by simpa using hcontinued), texts_append]
        exact hread.told.trans (hbegin hr hnew)

theorem told_readComments (run : List Token) {r : Recorder} (hr : r.Ready) :
    Catalog.Told vocabulary (texts (passages run)) r.catalog
      (r.readComments none run).catalog :=
  (told_rest run).1 hr nofun

/-! ## Walks -/

def unread (r : Recorder) : List (List Bytes) := texts r.comments.passages

/-- From `r` to `r'` passages are read that were to be read, each at most
once. -/
def Tells (vocabulary : Vocabulary) (r r' : Recorder) : Prop :=
  ∃ passages, (passages ++ r'.unread).Subperm r.unread ∧
  Catalog.Told vocabulary passages r.catalog r'.catalog

namespace Tells

variable {r r' r'' : Recorder}

theorem calm (h : Catalog.Told vocabulary [] r.catalog r'.catalog)
    (hcomments : r'.comments = r.comments) : Tells vocabulary r r' := by
  refine ⟨[], ?_, h⟩
  unfold unread
  rw [hcomments]
  exact .refl _

theorem trans (h : Tells vocabulary r r') (h' : Tells vocabulary r' r'') :
    Tells vocabulary r r'' := by
  obtain ⟨passages, hunread, htold⟩ := h
  obtain ⟨passages', hunread', htold'⟩ := h'
  refine ⟨passages ++ passages', ?_, htold.trans htold'⟩
  rw [List.append_assoc]
  exact ((List.Subperm.refl passages).append hunread').trans hunread

end Tells

theorem texts_filter_subperm {comments : CommentRuns} {offset : Nat}
    {run : List Token} (h : comments.lookup offset = some run) :
    (texts (passages run) ++
      texts (CommentRuns.passages (comments.filter (·.1 != offset)))).Subperm
      (texts comments.passages) := by
  obtain ⟨before, after, rfl, -⟩ := List.lookup_eq_some_iff.1 h
  have hothers :
      ((before ++ (offset, run) :: after).filter (·.1 != offset)).Sublist
        (before ++ after) := by
    rw [List.filter_append, List.filter_cons_of_neg (by simp)]
    exact List.filter_sublist.append List.filter_sublist
  have hall : (passages run ++ CommentRuns.passages (before ++ after)).Perm
      (CommentRuns.passages (before ++ (offset, run) :: after)) := by
    simp only [CommentRuns.passages, List.flatMap_append, List.flatMap_cons]
    exact List.perm_append_comm_assoc _ _ _
  rw [← texts_append]
  exact (((hothers.flatMap _).append_left _).map _).subperm.trans
    (hall.map _).subperm

theorem tells_flush {r : Recorder} (hr : r.Ready) (offset : Nat) :
    Tells vocabulary r (r.flush offset) := by
  cases hrun : r.comments.lookup offset with
  | none =>
      unfold flush
      rw [hrun]
      exact .calm (.refl _) rfl
  | some run =>
      have htaken : ({ r with comments := r.comments.filter (·.1 != offset) } :
          Recorder).Ready :=
        ⟨hr.reader, hr.locals, hr.last, hr.header⟩
      refine ⟨texts (passages run), ?_, ?_⟩
      · unfold unread
        rw [comments_flush]
        exact texts_filter_subperm hrun
      · unfold flush
        rw [hrun]
        dsimp only
        split
        · exact told_readComments run htaken
        · exact told_foldl_readInBody run htaken

theorem told_declare (r : Recorder) (item : Item) :
    Catalog.Told vocabulary [] r.catalog (r.declare item).2.catalog := by
  have htaken :
      Catalog.Told vocabulary [] r.catalog r.reader.takeBlock.2.catalog := by
    unfold CommentReader.takeBlock
    dsimp only
    split
    · exact .refl _
    · cases r.reader.offered? with
      | some id => exact .calm rfl (.modifyBlock _ _ fun _ => rfl)
      | none =>
          exact .calm rfl
            ((Docs.Retains.addBlock _ _ _).trans (.modifyBlock _ _ fun _ => rfl))
  have hadded (c : Catalog) : Catalog.Told vocabulary [] c (c.addItem item).2 := by
    unfold Catalog.addItem
    dsimp only
    split
    · exact .calm rfl (.of_blocks rfl)
    · exact .calm rfl (.of_blocks rfl)
  apply htaken.trans
  change Catalog.Told vocabulary [] _ (r.reader.declare item).2.catalog
  rw [CommentReader.Leads.catalog_declare]
  cases r.reader.takeBlock.1 with
  | none => exact hadded _
  | some block => exact (hadded _).trans (.calm rfl (.attach _ _ _))

/-- A walk through a source can be told. -/
theorem Course.tells {r r' : Recorder} (h : Course True r r') :
    Tells vocabulary r r' := by
  induction h with
  | aside haside _ =>
      exact .calm
        (.calm haside.vocabulary
          (.of_blocks (congrArg Docs.blocks haside.docs))) haside.comments
  | trans _ _ ih ih' => exact ih.trans ih'
  | flush offset hr => exact tells_flush (hr trivial) offset
  | declare _ _ => exact .calm (told_declare _ _) rfl
  | discard r => exact .calm (.refl _) rfl
  | note r notice => exact .calm (.calm rfl (.of_blocks rfl)) rfl
  | warn r pos what => exact .calm (.calm rfl (.of_blocks rfl)) rfl
  | scope _ ih => exact ih

end Recorder

/-! ## Sources and pages -/

namespace Catalog

variable {vocabulary : Vocabulary}

theorem told_readSource {c : Catalog} (hc : c.Consistent) (file source : Bytes) :
    Told vocabulary (SourceText.passages ⟨file, source⟩) c
      (c.readSource file source).2 := by
  have hsource :
      Told vocabulary [] c
        { c with declarations := c.declarations.addSource ⟨file, source⟩ } :=
    .calm rfl (.of_blocks rfl)
  have hrecorded (outline : Outline) :
      Told vocabulary (SourceText.passages ⟨file, source⟩) c
        (Recorder.recordSource
          { c with declarations := c.declarations.addSource ⟨file, source⟩ }
          file source (tokenize source) outline).catalog := by
    have hready : (Recorder.start
        { c with declarations := c.declarations.addSource ⟨file, source⟩ }
        file source (tokenize source)).Ready :=
      ⟨⟨(Step.source c ⟨file, source⟩).consistent hc, nofun⟩, nofun, nofun, nofun⟩
    have hcourse : Recorder.Course True _ _ := .record (fun _ => hready) outline
    obtain ⟨passages, hunread, htold⟩ := hcourse.tells
    have hpassages : passages.Subperm (SourceText.passages ⟨file, source⟩) := by
      have hread := (List.sublist_append_left passages _).subperm.trans hunread
      exact hread.trans
        ((CommentRuns.passages_ofTokens (tokenize source)).map _).subperm
    unfold Recorder.recordSource
    dsimp only
    split
    · exact (hsource.trans htold).mono hpassages
    · exact (hsource.trans htold).mono hpassages
  unfold readSource
  dsimp only
  split
  · exact hsource.of_calm
  · split
    · exact hrecorded _
    · exact (hrecorded _).settle (.calm rfl (.of_blocks rfl))

theorem told_finalize (c : Catalog) : Told vocabulary [] c c.finalize := by
  have hone (c : Catalog) (reference : Reference) :
      Told vocabulary [] c (c.resolveOne reference) := by
    unfold resolveOne
    split
    · exact .calm rfl (.modifyBlock _ _ fun _ => rfl)
    · exact .calm (vocabulary_bindTarget _ _ _ _) (.bindTarget _ _ _ _)
    · exact .calm rfl (.of_blocks rfl)
  unfold finalize
  split
  · exact .refl c
  · have hmarked :
        Told vocabulary [] c (c.mapDocs fun d => { d with isFinal := true }) :=
      .calm rfl (.of_blocks rfl)
    have hresolved :
        Told vocabulary [] c (c.mapDocs fun d =>
          { d with isFinal := true }).resolve := by
      rw [resolve_eq]
      exact (hmarked.trans (.foldl hone _ _)).trans (.calm rfl (.of_blocks rfl))
    have hgrouped :=
      (sameBlocks_assignGroups (c.mapDocs fun d =>
        { d with isFinal := true }).resolve).trans
        (Docs.SameBlocks.isRegrouping.pruneGroups _)
    exact hresolved.trans (.calm rfl (.of_blocks hgrouped.blocks))

theorem Renders.told {c c' : Catalog} (h : c.Renders c') :
    Told vocabulary [] c c' := by
  induction h with
  | refl => exact .refl c
  | @tail c' c'' _ hstep ih =>
      have hvocabulary := hstep.step.vocabulary
      apply ih.trans
      cases hstep with
      | demand hitem => exact .calm hvocabulary (.itemBlock _ _)
      | @refId block b wanted _ _ _ =>
          have hfresh : c'.docs.Retains (c'.docs.freshId wanted).2 := by
            rw [(c'.docs.freshId_fresh wanted).rest]
            exact .of_blocks rfl
          exact .calm hvocabulary (hfresh.trans (.modifyBlock _ _ fun _ => rfl))
      | warn file pos what => exact .calm hvocabulary (.of_blocks rfl)

end Catalog

namespace Run

variable {vocabulary : Vocabulary}

theorem told_readAll {run : Run} (hc : run.catalog.Consistent)
    (sources : List SourceText) :
    Catalog.Told vocabulary (sources.flatMap SourceText.passages) run.catalog
      (run.readAll sources).catalog := by
  induction sources generalizing run with
  | nil => exact .refl _
  | cons source sources ih =>
      have hnote :
          run.catalog.Step
            (run.catalog.note (.reading source.file source.text.length)) :=
        .note _ _
      have hread : Catalog.Told vocabulary source.passages run.catalog
          (run.readSource source.file source.text).2.catalog := by
        have hnoted : Catalog.Told vocabulary [] run.catalog
            (run.catalog.note (.reading source.file source.text.length)) :=
              .calm rfl (.of_blocks rfl)
        unfold readSource
        dsimp only
        split <;> exact hnoted.trans
          (Catalog.told_readSource (hnote.consistent hc) source.file source.text)
      exact hread.trans
        (ih ((reaches_readSource hc source.file source.text).consistent hc))

/-- A whole run can be told by passages of its sources, up to the last page. -/
theorem exists_log (settings : Settings) (vocabulary : Vocabulary)
    (language : Bytes) (sources : List SourceText) {c : Catalog}
    (h : ((fresh settings vocabulary language).readAll
      sources).catalog.finalize.Renders c) :
    ∃ log, Catalog.Logs vocabulary
      (fresh settings vocabulary language).catalog log c ∧
      (log.map (·.comments)).Subperm (sources.flatMap SourceText.passages) := by
  have hread : Catalog.Told vocabulary (sources.flatMap SourceText.passages)
      (fresh settings vocabulary language).catalog
      ((fresh settings vocabulary language).readAll sources).catalog :=
    told_readAll (consistent_fresh settings vocabulary language) sources
  obtain ⟨-, hlog⟩ := ((hread.settle (Catalog.told_finalize _)).settle h.told) rfl
  exact hlog

end Run

end LuaGloss

import LuaGloss.Proofs.Run.References
import LuaGloss.Proofs.Source.Walk

/-!
# The language of a run

A run writes the language that it was started with: neither a comment nor a
declaration changes it, and it is still the same when the documentation has come
to its final state.  The final state is reached once and for all.
-/

namespace LuaGloss

/-! ## Comments -/

theorem Catalog.language_addSeeAlso (c : Catalog) (block : BlockId)
    (name : Bytes) :
    (c.addSeeAlso block name).docs.language = c.docs.language := by
  unfold addSeeAlso
  dsimp only
  split <;> rfl

theorem Reading.Course.language {s s' : Reading} (h : s.Course s') :
    s'.reader.catalog.docs.language = s.reader.catalog.docs.language := by
  induction h with
  | addSeeAlso s name =>
      exact s.reader.catalog.language_addSeeAlso s.place.block name
  | trans _ _ ih ih' => exact ih'.trans ih
  | openRegion s =>
      unfold Reading.openRegion
      split <;> rfl
  | closeRegion s =>
      unfold Reading.closeRegion
      split <;> rfl
  | startFootnote s =>
      exact (Docs.Quiet.addFootnote s.reader.catalog.docs s.place.block).language
  | joinGroup s command argument =>
      have hgroup :=
        (Docs.Quiet.getGroup s.reader.catalog.docs (splitWord argument).1).language
      unfold Reading.joinGroup
      dsimp only
      split
      · rfl
      · exact hgroup
  | defineGroup s command argument =>
      have hgroup :=
        (Docs.Quiet.getGroup s.reader.catalog.docs (splitWord argument).1).language
      unfold Reading.defineGroup
      dsimp only
      split
      · rfl
      · exact hgroup
  | setTarget s command argument =>
      unfold Reading.setTarget
      dsimp only
      split
      · rfl
      · split
        · exact (Catalog.Quiet.setTarget _ _ _ _ _).docs.language
        · exact (Catalog.Quiet.setTarget _ _ _ _ _).docs.language
  | _ => rfl

namespace CommentReader

theorem language_readBack (r : CommentReader) (comment file : Bytes) (pos : Pos)
    (item : ItemId) :
    (r.readBack comment file pos item).catalog.docs.language =
      r.catalog.docs.language :=
  (Reading.Course.read (r.startBack file pos item) comment).language.trans
    (Catalog.Quiet.itemBlock r.catalog item).docs.language

theorem language_readAhead (r : CommentReader) (comment file : Bytes)
    (pos : Pos) (continues : Bool) :
    (r.readAhead comment file pos continues).catalog.docs.language =
      r.catalog.docs.language := by
  unfold readAhead
  dsimp only
  split
  · exact (Reading.Course.read _ comment).language
  · exact (Reading.Course.read _ comment).language.trans
      (Affects.quiet_startNew r file pos).docs.language

theorem language_declare (r : CommentReader) (item : Item) :
    (r.declare item).2.catalog.docs.language = r.catalog.docs.language := by
  have htaken : r.takeBlock.2.catalog.docs.language = r.catalog.docs.language := by
    unfold takeBlock
    dsimp only
    split
    · rfl
    · cases r.offered? <;> rfl
  have hadded : (r.takeBlock.2.catalog.addItem item).2.docs.language =
      r.takeBlock.2.catalog.docs.language := by
    unfold Catalog.addItem
    dsimp only
    split <;> rfl
  unfold declare
  dsimp only
  split
  · exact hadded.trans htaken
  · exact hadded.trans htaken

end CommentReader

/-! ## Sources -/

namespace Recorder

theorem language_flush (r : Recorder) (offset : Nat) :
    (r.flush offset).catalog.docs.language = r.catalog.docs.language := by
  apply flush_of_steps (R := fun r r' => r'.catalog.docs.language =
    r.catalog.docs.language) (fun _ => rfl)
    (fun h h' => h'.trans h) (fun _ _ => rfl)
  · intro r t
    unfold readInBody
    split
    · split
      · exact r.reader.language_readBack _ _ _ _
      · rfl
    · rfl
  · intro r previous t
    unfold readComment
    split
    · split
      · exact r.reader.language_readBack _ _ _ _
      · rfl
    · exact r.reader.language_readAhead _ _ _ _

theorem Course.language {sound : Prop} {r r' : Recorder} (h : Course sound r r') :
    r'.catalog.docs.language = r.catalog.docs.language := by
  induction h with
  | aside haside _ => rw [haside.docs]
  | trans _ _ ih ih' => exact ih'.trans ih
  | flush offset _ => exact language_flush _ offset
  | @declare r item _ _ => exact r.reader.language_declare item
  | discard r => rfl
  | note r notice => rfl
  | warn r pos what => rfl
  | scope _ ih => exact ih

end Recorder

namespace Catalog

theorem language_readSource (c : Catalog) (file source : Bytes) :
    (c.readSource file source).2.docs.language = c.docs.language := by
  have hrecorded (c : Catalog) (tokens : List Token) (outline : Outline) :
      (Recorder.recordSource c file source tokens
        outline).catalog.docs.language = c.docs.language := by
    have hcourse : Recorder.Course False (Recorder.start c file source tokens)
        ((Recorder.start c file source tokens).record outline) :=
          .record False.elim outline
    unfold Recorder.recordSource
    dsimp only
    split
    · exact hcourse.language
    · exact hcourse.language
  unfold readSource
  dsimp only
  split
  · rfl
  · split
    · exact hrecorded _ _ _
    · exact hrecorded _ _ _

/-! ## The final state -/

theorem language_resolve (c : Catalog) :
    c.resolve.docs.language = c.docs.language ∧
    c.resolve.docs.isFinal = c.docs.isFinal := by
  have hone (c : Catalog) (reference : Reference) :
      (c.resolveOne reference).docs.language = c.docs.language ∧
        (c.resolveOne reference).docs.isFinal = c.docs.isFinal := by
    unfold resolveOne
    split
    · exact ⟨rfl, rfl⟩
    next item _ _ =>
      have hquiet := (Quiet.bindTarget c reference.block item reference.name).docs
      exact ⟨hquiet.language, hquiet.isFinal⟩
    · exact ⟨rfl, rfl⟩
  have hall (queue : List Reference) (c : Catalog) :
      (queue.foldl resolveOne c).docs.language = c.docs.language ∧
        (queue.foldl resolveOne c).docs.isFinal = c.docs.isFinal := by
    induction queue generalizing c with
    | nil => exact ⟨rfl, rfl⟩
    | cons reference queue ih =>
        obtain ⟨hlanguage, hfinal⟩ := hone c reference
        obtain ⟨hlanguage', hfinal'⟩ := ih (c.resolveOne reference)
        exact ⟨hlanguage'.trans hlanguage, hfinal'.trans hfinal⟩
  rw [resolve_eq]
  exact hall c.docs.queue c

theorem language_finalize (c : Catalog) :
    c.finalize.docs.language = c.docs.language ∧
    c.finalize.docs.isFinal = true := by
  unfold finalize
  split
  next hfinal => exact ⟨rfl, hfinal⟩
  next =>
    obtain ⟨hlanguage, hfinal⟩ :=
      (c.mapDocs fun d => { d with isFinal := true }).language_resolve
    have hgrouped :=
      (quiet_assignGroups (c.mapDocs fun d =>
        { d with isFinal := true }).resolve).docs.trans
        (Docs.Quiet.isRegrouping.pruneGroups _)
    exact ⟨hgrouped.language.trans hlanguage, hgrouped.isFinal.trans hfinal⟩

theorem finalize_of_isFinal {c : Catalog} (h : c.docs.isFinal = true) :
    c.finalize = c := by
  rw [finalize, if_pos h]

end Catalog

theorem Run.language_readAll (run : Run) (sources : List SourceText) :
    (run.readAll sources).catalog.docs.language = run.catalog.docs.language := by
  induction sources generalizing run with
  | nil => rfl
  | cons source sources ih =>
      refine (ih _).trans ?_
      have hread :=
        (run.catalog.note
          (.reading source.file source.text.length)).language_readSource
          source.file source.text
      unfold readSource
      dsimp only
      split <;> exact hread

end LuaGloss

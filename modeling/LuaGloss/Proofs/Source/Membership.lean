import LuaGloss.Proofs.Comment.Membership
import LuaGloss.Proofs.Run.Steps
import LuaGloss.Proofs.Source.Walk

/-!
# Sources keep the documentation tidy

A comment is continued only within its run of comments.  A comment in between
that points back can replace the block in which the one before it stopped, but
the next comment does not continue that one.
-/

namespace LuaGloss

namespace Recorder

namespace Ready

variable {r : Recorder} (hready : r.Ready)

include hready

theorem tidy_readInBody (hr : r.reader.Tidy) (t : Token) :
    (r.readInBody t).reader.Tidy := by
  unfold readInBody
  split
  next item hitem =>
    split
    · exact hr.readBack hready.reader _ _ _ (hready.header item hitem)
    · exact hr
  next => exact hr

theorem tidy_readComment (hr : r.reader.Tidy) {previous : Option Token} {t : Token}
    (hresume : continues previous t = true → r.reader.Resumable) :
    (r.readComment previous t).reader.Tidy ∧
      (t.isRetroactive = false → (r.readComment previous t).reader.Resumable) := by
  unfold readComment
  split
  next hback =>
    refine ⟨?_, fun hahead => absurd (hahead.symm.trans hback) nofun⟩
    split
    next item hitem =>
      exact hr.readBack hready.reader _ _ _ (hready.last item hitem)
    next => exact hr.warn _ _ _
  next =>
    obtain ⟨htidy, hresumable⟩ :=
      hr.readAhead hready.reader t.value r.file t.pos hresume
    exact ⟨htidy, fun _ => hresumable⟩

end Ready

theorem isRetroactive_of_continues {previous : Option Token} {t : Token}
    (h : continues previous t = true) :
    ∃ p, previous = some p ∧ p.isRetroactive = false := by
  obtain ⟨p, hp, hall⟩ := (Option.any_eq_true _ _).1 h
  simp only [Bool.and_eq_true, Bool.not_eq_true'] at hall
  exact ⟨p, hp, hall.1.1.1⟩

theorem tidy_readComments (run : List Token) {r : Recorder} (hready : r.Ready)
    (hr : r.reader.Tidy) {previous : Option Token}
    (hresume : ∀ p, previous = some p → p.isRetroactive = false →
      r.reader.Resumable) :
    (r.readComments previous run).reader.Tidy := by
  induction run generalizing r previous with
  | nil => exact hr
  | cons t ts ih =>
      have hcontinues (h : continues previous t = true) : r.reader.Resumable := by
        obtain ⟨p, hp, hahead⟩ := isRetroactive_of_continues h
        exact hresume p hp hahead
      obtain ⟨htidy, hresumable⟩ := hready.tidy_readComment hr hcontinues
      refine ih (Leads.readComment r previous t hready).2 htidy ?_
      rintro _ ⟨⟩
      exact hresumable

theorem tidy_foldl_readInBody (run : List Token) {r : Recorder}
    (hready : r.Ready) (hr : r.reader.Tidy) :
    (run.foldl readInBody r).reader.Tidy := by
  induction run generalizing r with
  | nil => exact hr
  | cons t ts ih =>
      exact ih (Leads.readInBody r t hready).2 (hready.tidy_readInBody hr t)

theorem Ready.tidy_flush {r : Recorder} (hready : r.Ready) (hr : r.reader.Tidy)
    (offset : Nat) : (r.flush offset).reader.Tidy := by
  unfold flush
  split
  · exact hr
  next run _ =>
    have htaken :
        ({ r with comments := r.comments.filter (·.1 != offset) } :
          Recorder).Ready :=
      ⟨hready.reader, hready.locals, hready.last, hready.header⟩
    dsimp only
    split
    · exact tidy_readComments run htaken hr nofun
    · exact tidy_foldl_readInBody run htaken hr

theorem Course.tidy {r r' : Recorder} (h : Course True r r')
    (hr : r.reader.Tidy) : r'.reader.Tidy := by
  induction h with
  | @aside r r' haside _ =>
      have hdocs : r'.reader.catalog.docs = r.reader.catalog.docs := haside.docs
      rw [haside.reader]
      exact ⟨hdocs ▸ hr.docs, hdocs ▸ hr.regions, hdocs ▸ hr.block,
        hdocs ▸ hr.group⟩
  | trans _ _ ih ih' => exact ih' (ih hr)
  | flush offset hready => exact (hready trivial).tidy_flush hr offset
  | declare hready _ => exact hr.declare (hready trivial).reader _
  | discard _ => exact hr.discard
  | note _ notice => exact hr.note notice
  | warn _ pos what => exact hr.warn _ pos what
  | scope _ ih => exact (ih (hr.enterScope _)).leaveScope

end Recorder

namespace Catalog

theorem tidy_readSource {c : Catalog} (hc : c.Consistent) (hd : c.docs.Tidy)
    (file source : Bytes) : (c.readSource file source).2.docs.Tidy := by
  let begun := { c with declarations := c.declarations.addSource ⟨file, source⟩ }
  have hbegun : begun.Consistent := (Step.source c ⟨file, source⟩).consistent hc
  have hrecorded (tokens : List Token) (outline : Outline) :
      (Recorder.recordSource begun file source tokens
        outline).catalog.docs.Tidy := by
    have hready : True → (Recorder.start begun file source tokens).Ready :=
      fun _ => .start hbegun file source tokens
    have hstart : (Recorder.start begun file source tokens).reader.Tidy :=
      ⟨hd, nofun, nofun, nofun⟩
    have hrecord := (Recorder.Course.record hready outline).tidy hstart
    unfold Recorder.recordSource
    dsimp only
    split
    · exact hrecord.docs
    · exact hrecord.docs
  unfold readSource
  dsimp only
  split
  · exact hd
  · split
    · exact hrecorded _ _
    · exact (hrecorded _ _).note _

end Catalog

theorem Run.tidy_readAll (settings : Settings) (vocabulary : Vocabulary)
    (language : Bytes) (sources : List SourceText) :
    ((fresh settings vocabulary language).readAll sources).catalog.docs.Tidy := by
  have hall (run : Run) (hc : run.catalog.Consistent)
      (hd : run.catalog.docs.Tidy) :
      (run.readAll sources).catalog.docs.Tidy := by
    induction sources generalizing run with
    | nil => exact hd
    | cons source sources ih =>
        refine ih _
          ((reaches_readSource hc source.file source.text).consistent hc) ?_
        have hread :=
          Catalog.tidy_readSource ((Catalog.Step.note _ _).consistent hc)
            (hd.note (.reading source.file source.text.length))
            source.file source.text
        unfold readSource
        dsimp only
        split <;> exact hread
  exact hall _ (consistent_fresh settings vocabulary language) (.empty language)

end LuaGloss

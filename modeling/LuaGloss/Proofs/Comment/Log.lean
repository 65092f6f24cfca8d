import LuaGloss.Proofs.Comment.Footnotes
import Mathlib.Data.List.Forall2

/-!
# The log of comments

A run can be told as a log: which comments were read, and into which blocks they
went.  Everything else that happens retains the faces of all blocks.  The log
accounts for all footnotes: a block has one for each stretch of comments that
was written into it and has a footnote in its gist, in the order of the log.
-/

namespace LuaGloss

def Gist.wordings (writings : List (BlockId × Gist)) (block : BlockId) :
    List Wording :=
  (writings.filter (·.1 = block)).filterMap (·.2.wording?)

/-- Comments that continue each other, the block that they went into, and the
blocks of the groups that they describe. -/
structure LoggedComments where
  block : BlockId
  comments : List Bytes
  groups : List BlockId
  deriving DecidableEq, Repr

namespace LoggedComments

def writings (vocabulary : Vocabulary) (entry : LoggedComments) :
    List (BlockId × Gist) :=
  (entry.block :: entry.groups).zip
    (Stretches.ofComments vocabulary entry.comments).gists

def wordings (vocabulary : Vocabulary) (log : List LoggedComments)
    (block : BlockId) : List Wording :=
  Gist.wordings (log.flatMap (writings vocabulary)) block

end LoggedComments

theorem Docs.exists_groupBlock? {d : Docs} {names : List Bytes}
    {groups : List BlockId}
    (h : List.Forall₂ (d.groupBlock? · = some ·) names groups) {block : BlockId}
    (hblock : block ∈ groups) : ∃ name, d.groupBlock? name = some block := by
  induction h with
  | nil => simp at hblock
  | @cons name _ _ _ hfirst _ ih =>
      rcases List.mem_cons.1 hblock with rfl | hrest
      · exact ⟨name, hfirst⟩
      · exact ih hrest

namespace Catalog

/-- From one catalog to another the comments of the log are read, and nothing
else changes the face of a block. -/
inductive Logs (vocabulary : Vocabulary) :
    Catalog → List LoggedComments → Catalog → Prop
  | calm {c c' : Catalog} : c.docs.Retains c'.docs → Logs vocabulary c [] c'
  | comments {r r' : CommentReader} {own : BlockId} {comments : List Bytes}
      {groups : List BlockId} : r.catalog.Consistent →
      r.catalog.vocabulary = vocabulary → r.Reads own comments r' →
      List.Forall₂ (r'.catalog.docs.groupBlock? · = some ·)
        (Stretches.ofComments vocabulary comments).groups groups →
      Logs vocabulary r.catalog [⟨own, comments, groups⟩] r'.catalog
  | trans {c c' c'' : Catalog} {log log' : List LoggedComments} :
      Logs vocabulary c log c' → Logs vocabulary c' log' c'' →
      Logs vocabulary c (log ++ log') c''

namespace Logs

variable {vocabulary : Vocabulary} {c c' : Catalog} {log : List LoggedComments}

theorem written (h : Logs vocabulary c log c') :
    c.docs.Written (log.flatMap (LoggedComments.writings vocabulary)) c'.docs := by
  induction h with
  | calm hdocs => exact .calm hdocs
  | @comments r r' own comments groups hc hvocabulary hreads hgroups =>
      obtain ⟨-, groups', hgroups', hwritten⟩ := hreads.written hc
      rw [hvocabulary] at hgroups' hwritten
      -- The groups are known by their names.
      obtain rfl : groups = groups' := by
        refine List.right_unique_forall₂' ?_ hgroups hgroups'
        intro name block block' hblock hblock'
        exact Option.some.inj (hblock.symm.trans hblock')
      rw [List.flatMap_cons, List.flatMap_nil, List.append_nil]
      exact hwritten
  | trans _ _ ih ih' =>
      rw [List.flatMap_append]
      exact ih.trans ih'

theorem isGroup (h : Logs vocabulary c log c') {entry : LoggedComments}
    (hentry : entry ∈ log) {block : BlockId} (hblock : block ∈ entry.groups) :
    ∃ face, c'.docs.face? block = some face ∧ face.kind.IsGroup := by
  induction h with
  | calm _ => simp at hentry
  | comments hc hvocabulary hreads hgroups =>
      obtain rfl := List.mem_singleton.1 hentry
      obtain ⟨hreaches, -⟩ := hreads.written hc
      obtain ⟨name, hnamed⟩ := Docs.exists_groupBlock? hgroups hblock
      exact Docs.face?_of_groupBlock? (hreaches.consistent hc) hnamed
  | trans _ h' ih ih' =>
      rcases List.mem_append.1 hentry with hleft | hright
      · obtain ⟨face, hface, hgroup⟩ := ih hleft
        obtain ⟨face', hface', hkind⟩ := h'.written.kind_eq hface
        exact ⟨face', hface', hkind ▸ hgroup⟩
      · exact ih' hright

end Logs

end Catalog

namespace Docs

/-- The stretches account for the footnotes of all blocks.  Stretches can be
written into a footnote itself; otherwise it says exactly what its stretch says.
Only a footnote can have footnotes that are not accounted for. -/
structure Accounted (writings : List (BlockId × Gist)) (d : Docs) : Prop where
  blocks : ∀ writing ∈ writings, d.face? writing.1 ≠ none
  notes : ∀ own face, d.face? own = some face →
    ∃ nested notes, face.footnotes = nested ++ notes ∧
      (¬face.kind.IsFootnote → nested = []) ∧
      List.Forall₂ (fun note wording =>
          (∀ writing ∈ writings, writing.1 ≠ note) → d.IsNote own note wording)
        notes (Gist.wordings writings own)

theorem wordings_eq_nil {writings : List (BlockId × Gist)} {own : BlockId}
    (h : ∀ writing ∈ writings, writing.1 ≠ own) :
    Gist.wordings writings own = [] := by
  unfold Gist.wordings
  rw [List.filter_eq_nil_iff.2
    fun writing hwriting => by simpa using h writing hwriting]
  rfl

theorem wordings_concat (writings : List (BlockId × Gist)) (block own : BlockId)
    (g : Gist) :
    Gist.wordings (writings ++ [(block, g)]) own =
      Gist.wordings writings own ++
        if block = own then g.wording?.toList else [] := by
  unfold Gist.wordings
  rw [List.filter_append, List.filterMap_append]
  congr 1
  by_cases hown : block = own
  · rw [if_pos hown, List.filter_cons_of_pos (by simpa using hown)]
    cases hwording : g.wording? <;> simp [hwording]
  · rw [if_neg hown, List.filter_cons_of_neg (by simpa using hown)]
    rfl

namespace Accounted

variable {writings : List (BlockId × Gist)} {d d' : Docs}

theorem empty (language : Bytes) : Accounted [] { Docs.empty with language } where
  blocks := by simp
  notes own face hface := by simp [face?, block?, Docs.empty] at hface

theorem wordings_of_none (h : Accounted writings d) {own : BlockId}
    (hown : d.face? own = none) : Gist.wordings writings own = [] :=
  wordings_eq_nil fun writing hwriting heq =>
    h.blocks writing hwriting (heq ▸ hown)

theorem retains (h : Accounted writings d) (hdocs : d.Retains d') :
    Accounted writings d' where
  blocks writing hwriting hnone := by
    obtain ⟨face, hface⟩ :=
      Option.ne_none_iff_exists'.1 (h.blocks writing hwriting)
    simp [hdocs.old _ face hface] at hnone
  notes own face hface := by
    cases hbefore : d.face? own with
    | none =>
        have hempty : face.footnotes = [] := by
          rcases hdocs.new own face hface with hsome | hempty
          · simp [hbefore] at hsome
          · exact hempty
        rw [h.wordings_of_none hbefore, hempty]
        exact ⟨[], [], rfl, fun _ => rfl, .nil⟩
    | some before =>
        obtain rfl : before = face :=
          Option.some.inj ((hdocs.old own before hbefore).symm.trans hface)
        obtain ⟨nested, notes, hnotes, hnormal, hall⟩ := h.notes own before hbefore
        exact ⟨nested, notes, hnotes, hnormal,
          hall.imp fun _ _ hnote hfree => hdocs.isNote (hnote hfree)⟩

section

variable {own : BlockId} {kind : BlockKind} {notes : List BlockId} {s : Reading}
  {g : Gist} (hfollows : s.Follows d own kind notes g)

include hfollows

theorem isNote_record {parent note : BlockId} {wording : Wording}
    (hnote : (∀ writing ∈ writings, writing.1 ≠ note) →
      d.IsNote parent note wording)
    (hfree : ∀ writing ∈ writings ++ [(own, g)], writing.1 ≠ note) :
    s.docs.IsNote parent note wording := by
  obtain ⟨more, hface⟩ := hnote fun writing hwriting =>
    hfree writing (List.mem_append_left _ hwriting)
  have hne : own ≠ note := hfree (own, g) (by simp)
  exact ⟨more, hfollows.kept note _ hface hne.symm⟩

theorem face?_record {writing : BlockId × Gist} (h : Accounted writings d)
    (hwriting : writing ∈ writings ++ [(own, g)]) :
    s.docs.face? writing.1 ≠ none := by
  have hthere : d.face? writing.1 ≠ none := by
    rcases List.mem_append.1 hwriting with hold | hnew
    · exact h.blocks writing hold
    · obtain rfl := List.mem_singleton.1 hnew
      obtain ⟨wording, hhome⟩ := hfollows.home
      simp [hhome]
  obtain ⟨face, hface⟩ := Option.ne_none_iff_exists'.1 hthere
  obtain ⟨face', hface', -⟩ := hfollows.kind_eq hface
  simp [hface']

theorem record (h : Accounted writings d) :
    Accounted (writings ++ [(own, g)]) s.docs where
  blocks writing hwriting := face?_record hfollows h hwriting
  notes block face hface := by
    rw [wordings_concat]
    by_cases hblock : own = block
    · subst hblock
      obtain ⟨wording, hhome⟩ := hfollows.home
      obtain ⟨new, ⟨wording', hnew⟩, hall'⟩ := hfollows.tracks.exists_notes
      obtain rfl := Option.some.inj (hnew.symm.trans hface)
      obtain ⟨nested, before, hbefore, hnormal, hall⟩ := h.notes own _ hhome
      rw [if_pos rfl]
      refine ⟨nested, before ++ new, ?_, hnormal, List.rel_append ?_ ?_⟩
      · change notes ++ new = _
        rw [show notes = nested ++ before from hbefore, List.append_assoc]
      · exact hall.imp fun _ _ hnote => isNote_record hfollows hnote
      · apply hall'.imp
        intro note wording hnote _
        exact hnote
    · rw [if_neg hblock, List.append_nil]
      cases hbefore : d.face? block with
      | none =>
          -- A block that is made on the way is a footnote, or has no footnotes.
          rw [h.wordings_of_none hbefore]
          exact ⟨face.footnotes, [], by simp,
            hfollows.fresh block face hface hbefore, .nil⟩
      | some before =>
          have hsame := hfollows.kept block before hbefore (Ne.symm hblock)
          obtain rfl := Option.some.inj (hsame.symm.trans hface)
          obtain ⟨nested, notes', hnotes, hnormal, hall⟩ := h.notes block _ hbefore
          exact ⟨nested, notes', hnotes, hnormal,
            hall.imp fun _ _ hnote => isNote_record hfollows hnote⟩

end

end Accounted

/-- What has been on record stays so, and what is written is put on record. -/
theorem Written.accounted {d d' : Docs} {writings : List (BlockId × Gist)}
    (h : d.Written writings d') {before : List (BlockId × Gist)}
    (hbefore : d.Accounted before) : d'.Accounted (before ++ writings) := by
  induction h generalizing before with
  | calm hdocs =>
      rw [List.append_nil]
      exact hbefore.retains hdocs
  | stretch hfollows => exact .record hfollows hbefore
  | trans _ _ ih ih' =>
      rw [← List.append_assoc]
      exact ih' (ih hbefore)

end Docs

end LuaGloss

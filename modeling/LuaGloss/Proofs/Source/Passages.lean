import LuaGloss.Catalog.Source
import Mathlib.Data.List.SplitBy

/-!
# Passages

Comments on lines that follow each other are read as one: they form a passage.
A comment that refers back is a passage of its own.  The runs of comments that a
recorder goes through consist of whole passages of the source.
-/

namespace LuaGloss

namespace Token

def isContinuedBy (p t : Token) : Bool :=
  !t.isRetroactive && Recorder.continues (some p) t

variable {p t : Token}

theorem isContinuedBy_of_ahead (ht : t.isRetroactive = false) :
    p.isContinuedBy t = Recorder.continues (some p) t := by
  simp [isContinuedBy, ht]

theorem isContinuedBy_of_back (hp : p.isRetroactive = true) :
    p.isContinuedBy t = false := by
  simp [isContinuedBy, Recorder.continues, hp]

theorem ahead_of_isContinuedBy (h : p.isContinuedBy t = true) :
    p.isRetroactive = false ∧ t.isRetroactive = false := by
  simp only [isContinuedBy, Recorder.continues, Option.any_some,
    Bool.and_eq_true, Bool.not_eq_true'] at h
  exact ⟨h.2.1.1.1, h.1⟩

theorem isComment_of_isContinuedBy (h : p.isContinuedBy t = true) :
    p.kind.isComment = true ∧ t.kind.isComment = true := by
  simp only [isContinuedBy, Recorder.continues, Option.any_some,
    Bool.and_eq_true, beq_iff_eq] at h
  obtain ⟨-, ⟨⟨-, hp⟩, ht⟩, -⟩ := h
  rw [hp, ht]
  exact ⟨rfl, rfl⟩

/-- Tokens in passages; a token that is no comment stands alone. -/
def passages (tokens : List Token) : List (List Token) :=
  tokens.splitBy isContinuedBy

theorem passages_append {tokens more : List Token}
    (h : ∀ p ∈ tokens.getLast?, ∀ t ∈ more.head?, p.isContinuedBy t = false) :
    passages (tokens ++ more) = passages tokens ++ passages more :=
  List.splitBy_append h

theorem passages_of_isChain {passage : List Token} (hne : passage ≠ [])
    (h : passage.IsChain fun p t => p.isContinuedBy t) :
    passages passage = [passage] :=
  List.splitBy_of_isChain hne h

theorem passages_cons {more : List Token}
    (h : ∀ next ∈ more.head?, t.isContinuedBy next = false) :
    passages (t :: more) = [t] :: passages more := by
  have happend : passages ([t] ++ more) = passages [t] ++ passages more :=
    passages_append (by simpa using h)
  exact happend

theorem passages_cons_of_back (h : t.isRetroactive = true) (more : List Token) :
    passages (t :: more) = [t] :: passages more :=
  passages_cons fun _ _ => isContinuedBy_of_back h

theorem flatten_passages (tokens : List Token) :
    (passages tokens).flatten = tokens := List.flatten_splitBy _ _

theorem ahead_of_isChain {passage : List Token}
    (h : passage.IsChain fun p t => p.isContinuedBy t)
    (hlength : 2 ≤ passage.length) :
    ∀ t ∈ passage, t.isRetroactive = false := by
  induction h with
  | nil => simp at hlength
  | singleton t => simp at hlength
  | @cons_cons t next more hnext hchain ih =>
      obtain ⟨ht, hnextAhead⟩ := ahead_of_isContinuedBy hnext
      cases more with
      | nil => simp [ht, hnextAhead]
      | cons last more => exact List.forall_mem_cons.2 ⟨ht, ih (by simp)⟩

theorem back_sublist_passages (tokens : List Token) :
    ((tokens.filter isRetroactive).map fun t => [t]).Sublist
      (passages tokens) := by
  have hone (passage : List Token) (hpassage : passage ∈ passages tokens) :
      ((passage.filter isRetroactive).map fun t => [t]).Sublist [passage] := by
    have hchain := List.isChain_of_mem_splitBy hpassage
    match passage with
    | [] => simp
    | [t] => cases ht : t.isRetroactive <;> simp [ht]
    | t :: next :: more =>
        have hahead := ahead_of_isChain hchain (by simp)
        rw [List.filter_eq_nil_iff.2 fun t ht => by simp [hahead t ht]]
        simp
  have hall (parts : List (List Token)) (hparts : ∀ passage ∈ parts, passage ∈
      passages tokens) :
      ((parts.flatten.filter isRetroactive).map fun t => [t]).Sublist parts := by
    induction parts with
    | nil => simp
    | cons passage parts ih =>
        rw [List.flatten_cons, List.filter_append, List.map_append]
        exact (hone passage (hparts passage (by simp))).append
          (ih fun part hpart => hparts part (by simp [hpart]))
  have hflat := hall (passages tokens) fun _ hpassage => hpassage
  rwa [flatten_passages] at hflat

end Token

namespace CommentRuns

open LuaGloss.Token

def passages (runs : CommentRuns) : List (List Token) :=
  runs.flatMap fun run => Token.passages run.2

theorem passages_collect (tokens : List Token) {pending : List Token}
    (h : ∀ t ∈ pending, t.kind.isComment = true) :
    (collect pending tokens).passages.Sublist
      ((Token.passages (pending ++ tokens)).filter fun passage =>
        passage.all (·.kind.isComment)) := by
  induction tokens generalizing pending with
  | nil => exact List.nil_sublist _
  | cons t ts ih =>
      unfold collect
      by_cases ht : t.kind.isComment = true
      · have hpending : ∀ p ∈ pending ++ [t], p.kind.isComment = true := by
          intro p hp
          rcases List.mem_append.1 hp with hold | hnew
          · exact h p hold
          · rwa [List.mem_singleton.1 hnew]
        rw [if_pos ht, List.append_cons pending t ts]
        exact ih hpending
      · have hbefore : ∀ p ∈ pending.getLast?, ∀ next ∈ (t :: ts).head?,
            p.isContinuedBy next = false := by
          intro p _ next hnext
          obtain rfl : t = next := by simpa using hnext
          exact eq_false_of_ne_true fun hcontinued =>
            ht (isComment_of_isContinuedBy hcontinued).2
        have hafter : ∀ next ∈ ts.head?, t.isContinuedBy next = false := by
          intro next _
          exact eq_false_of_ne_true fun hcontinued =>
            ht (isComment_of_isContinuedBy hcontinued).1
        have hpending : ∀ passage ∈ Token.passages pending,
            passage.all (·.kind.isComment) = true := by
          intro passage hpassage
          rw [List.all_eq_true]
          intro p hp
          apply h
          rw [← flatten_passages pending]
          exact List.mem_flatten_of_mem hpassage hp
        have hrest : (collect [] ts).passages.Sublist
            ((Token.passages ts).filter fun passage =>
              passage.all (·.kind.isComment)) := ih (by simp)
        rw [if_neg ht, passages_append hbefore, passages_cons hafter,
          List.filter_append,
          List.filter_eq_self.2 hpending,
            List.filter_cons_of_neg (by simpa using ht)]
        split
        next =>
          exact hrest.trans (List.sublist_append_right _ _)
        next =>
          exact hrest.append_left (Token.passages pending)

/-- The recorder goes through passages of the source. -/
theorem passages_ofTokens (tokens : List Token) :
    (ofTokens tokens).passages.Sublist
      ((Token.passages tokens).filter fun passage =>
        passage.all (·.kind.isComment)) :=
  passages_collect tokens (by simp)

end CommentRuns

/-- The passages of comments in a source. -/
def SourceText.passages (source : SourceText) : List (List Bytes) :=
  ((Token.passages (tokenize source.text)).filter fun passage =>
    passage.all (·.kind.isComment)).map
    fun passage => passage.map (·.value)

end LuaGloss

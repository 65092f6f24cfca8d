import LuaGloss.Comment.Reader
import LuaGloss.Proofs.Docs.Face

/-!
# What comments say in their footnotes

A run of comment lines is written into one block.  A footnote command moves the
place that is written to into a new footnote, and nothing moves it back: a
second footnote command makes a footnote of the first footnote.  The description
of a group goes to the block of the group.  So comments fall into stretches, and
what gets into a footnote of the block that a stretch is written into is the
text from its first footnote command up to the second one, or to its end.

The gists of comments follow their texts with only this in mind.  They know
neither blocks nor groups, except for the names of the groups.
-/

namespace LuaGloss

namespace Wording

def addText (w : Wording) (part : BlockPart) (text : Bytes) : Wording :=
  match part with
  | .detailed => { w with detailed := Reading.appendText w.detailed text }
  | .brief => { w with brief := Reading.appendText w.brief text }
  | .seeAlso => w

def addLine (w : Wording) (part : BlockPart) (indent : Bytes) : Wording :=
  match part with
  | .detailed => { w with detailed := Reading.appendLine w.detailed indent }
  | .brief => { w with brief := Reading.appendLine w.brief indent }
  | .seeAlso => w

end Wording

/-- Where a stretch writes, as seen from the block that it began with. -/
inductive Gist where
  /-- Into the block itself. -/
  | own
  /-- Into its footnote. -/
  | note (part : BlockPart) (wording : Wording)
  /-- Into a footnote of its footnote. -/
  | past (wording : Wording)
  deriving DecidableEq, Repr

namespace Gist

def wording? : Gist → Option Wording
  | own => none
  | note _ wording => some wording
  | past wording => some wording

def toPart (g : Gist) (part : BlockPart) : Gist :=
  match g with
  | note _ wording => note part wording
  | g => g

def mapWording (g : Gist) (f : BlockPart → Wording → Wording) : Gist :=
  match g with
  | note part wording => note part (f part wording)
  | g => g

def addText (g : Gist) (text : Bytes) : Gist :=
  g.mapWording fun part wording => wording.addText part text

def addLine (g : Gist) (indent : Bytes) : Gist :=
  g.mapWording fun part wording => wording.addLine part indent

def addEmptyLine (g : Gist) : Gist :=
  match g with
  | note .detailed _ => g.addLine []
  | g => g.toPart .detailed

def addNewLine (g : Gist) (indent blank : Bytes) (after : List CommentToken) :
    Gist :=
  match after with
  | .newLine _ _ :: _ => g.addEmptyLine
  | .endOfText :: _ => g.addLine []
  | _ => g.addLine (Bytes.dropPrefix indent blank)

def startFootnote : Gist → Gist
  | own => note .detailed .empty
  | note _ wording => past wording
  | past wording => past wording

end Gist

/-- The stretches of comments. -/
structure Stretches where
  /-- The names of the groups that are described, each in a stretch of its own
  after the first one. -/
  groups : List Bytes
  /-- The gists of the stretches that are finished. -/
  done : List Gist
  /-- The gist of the last stretch. -/
  gist : Gist
  deriving DecidableEq, Repr

namespace Stretches

def begin : Stretches := ⟨[], [], .own⟩

def gists (g : Stretches) : List Gist := g.done ++ [g.gist]

def mapGist (g : Stretches) (f : Gist → Gist) : Stretches :=
  { g with gist := f g.gist }

def describeGroup (g : Stretches) (name : Bytes) : Stretches :=
  ⟨g.groups ++ [name], g.gists, .own⟩

/-- Obeys a command that the given text follows; the text that is left. -/
def obey (g : Stretches) (command : Command) (argument : Bytes) :
    Stretches × Bytes :=
  let (name, rest) := Reading.splitWord argument
  match command with
  | .footnote => (g.mapGist .startFootnote, argument)
  | .brief => (g.mapGist (·.toPart .brief), argument)
  | .see => (g.mapGist (·.toPart .seeAlso), argument)
  | .title => (g, [])
  | .import_ | .inGroup => (g, rest)
  | .group | .subGroup =>
    if name.isEmpty then (g, rest) else (g.describeGroup name, [])
  | _ => (g, if name.isEmpty then rest else [])

def obeyCustom (vocabulary : Vocabulary) (g : Stretches) (mark : UInt8)
    (name argument : Bytes) : Stretches × Bytes :=
  match vocabulary.find? name with
  | none => (g.mapGist (·.addText (mark :: name)), argument)
  | some command =>
    (g, if command.takesParam then (Reading.splitWord argument).2 else argument)

def readTokens (vocabulary : Vocabulary) (g : Stretches)
    (indent left : Option Bytes) : List CommentToken → Stretches
  | [] => g
  | token :: rest =>
    match token with
    | .endOfText => g
    | .text text =>
      readTokens vocabulary (g.mapGist (·.addText (left.getD text)))
        indent none rest
    | .newLine _ blank =>
      let first := indent.getD blank
      readTokens vocabulary (g.mapGist (·.addNewLine first blank rest))
        (if Reading.hasLine rest then some first else indent) none rest
    | .openBrace | .closeBrace => readTokens vocabulary g indent none rest
    | .command _ command =>
      let (g, left) := g.obey command (Reading.argumentOf rest)
      readTokens vocabulary g indent (some left) rest
    | .other mark name =>
      let (g, left) := g.obeyCustom vocabulary mark name (Reading.argumentOf rest)
      readTokens vocabulary g indent (some left) rest

def readText (vocabulary : Vocabulary) (g : Stretches) (comment : Bytes) :
    Stretches :=
  if comment.isBlank then g.mapGist .addEmptyLine
  else (g.mapGist (·.addLine [])).readTokens vocabulary none none
    (CommentToken.tokenize comment)

/-- The stretches of the texts of comment lines that continue each other. -/
def ofComments (vocabulary : Vocabulary) (comments : List Bytes) : Stretches :=
  comments.foldl (readText vocabulary) begin

end Stretches

/-! ## The number of footnotes -/

namespace CommentToken

def isFootnote : CommentToken → Bool
  | command _ .footnote => true
  | _ => false

def describesGroup : CommentToken → Bool
  | command _ .group | command _ .subGroup => true
  | _ => false

def ofComment (comment : Bytes) : List CommentToken :=
  if comment.isBlank then [] else (tokenize comment).takeWhile (· != .endOfText)

end CommentToken

namespace Gist

variable (g : Gist)

theorem isSome_wording?_toPart (part : BlockPart) :
    (g.toPart part).wording?.isSome = g.wording?.isSome := by
  cases g <;> rfl

theorem isSome_wording?_mapWording (f : BlockPart → Wording → Wording) :
    (g.mapWording f).wording?.isSome = g.wording?.isSome := by
  cases g <;> rfl

theorem isSome_wording?_addEmptyLine :
    g.addEmptyLine.wording?.isSome = g.wording?.isSome := by
  unfold addEmptyLine
  split
  · exact isSome_wording?_mapWording _ _
  · exact isSome_wording?_toPart _ _

theorem isSome_wording?_addNewLine (indent blank : Bytes)
    (after : List CommentToken) :
    (g.addNewLine indent blank after).wording?.isSome = g.wording?.isSome := by
  unfold addNewLine
  split
  · exact g.isSome_wording?_addEmptyLine
  · exact g.isSome_wording?_mapWording _
  · exact g.isSome_wording?_mapWording _

theorem isSome_wording?_startFootnote :
    g.startFootnote.wording?.isSome = true := by
  cases g <;> rfl

end Gist

namespace Stretches

/-- There is one stretch, and it has a footnote exactly if one was started. -/
structure Holds (hasNote : Bool) (g : Stretches) : Prop where
  done : g.done = []
  isSome : g.gist.wording?.isSome = hasNote

namespace Holds

variable {hasNote : Bool} {g : Stretches}

theorem mapGist (h : Holds hasNote g) {f : Gist → Gist}
    (hf : ∀ g : Gist, (f g).wording?.isSome = g.wording?.isSome) :
    Holds hasNote (g.mapGist f) :=
  ⟨h.done, (hf g.gist).trans h.isSome⟩

theorem obey (h : Holds hasNote g) (mark : UInt8) (command : Command)
    (argument : Bytes)
    (hgroup : (CommentToken.command mark command).describesGroup = false) :
    Holds (hasNote || (CommentToken.command mark command).isFootnote)
      (g.obey command argument).1 := by
  cases command with
  | footnote =>
      refine ⟨h.done, g.gist.isSome_wording?_startFootnote.trans ?_⟩
      exact (Bool.or_true _).symm
  | brief =>
      simpa [CommentToken.isFootnote, Stretches.obey]
        using h.mapGist fun g => g.isSome_wording?_toPart .brief
  | see =>
      simpa [CommentToken.isFootnote, Stretches.obey]
        using h.mapGist fun g => g.isSome_wording?_toPart .seeAlso
  | group => simp [CommentToken.describesGroup] at hgroup
  | subGroup => simp [CommentToken.describesGroup] at hgroup
  | _ => simpa [CommentToken.isFootnote, Stretches.obey] using h

theorem obeyCustom (h : Holds hasNote g) (vocabulary : Vocabulary) (mark : UInt8)
    (name argument : Bytes) :
    Holds hasNote (g.obeyCustom vocabulary mark name argument).1 := by
  unfold Stretches.obeyCustom
  split
  · exact h.mapGist fun g => g.isSome_wording?_mapWording _
  · exact h

theorem readTokens (vocabulary : Vocabulary) (tokens : List CommentToken)
    (h : Holds hasNote g) (indent left : Option Bytes)
    (hgroup : ∀ token ∈ tokens.takeWhile (· != .endOfText),
      token.describesGroup = false) :
    Holds (hasNote ||
        (tokens.takeWhile (· != .endOfText)).any CommentToken.isFootnote)
      (g.readTokens vocabulary indent left tokens) := by
  induction tokens generalizing hasNote g indent left with
  | nil => simpa [Stretches.readTokens] using h
  | cons token rest ih =>
      by_cases hend : token = .endOfText
      · subst hend
        simpa [Stretches.readTokens] using h
      · rw [List.takeWhile_cons_of_pos (by simpa using hend)] at hgroup ⊢
        rw [List.any_cons, ← Bool.or_assoc]
        have hrest := fun t ht => hgroup t (List.mem_cons_of_mem _ ht)
        have hfirst := hgroup token List.mem_cons_self
        -- All other tokens than footnote commands leave the number as it is.
        have hsame {g' : Stretches} (h' : Holds hasNote g') :
            Holds (hasNote || false) g' := by
          rwa [Bool.or_false]
        unfold Stretches.readTokens
        cases token with
        | endOfText => exact (hend rfl).elim
        | text text =>
            refine ih (hsame (h.mapGist fun g => ?_)) _ _ hrest
            exact g.isSome_wording?_mapWording _
        | newLine lineBreak blank =>
            refine ih (hsame (h.mapGist fun g => ?_)) _ _ hrest
            exact g.isSome_wording?_addNewLine _ _ _
        | openBrace => exact ih (hsame h) _ _ hrest
        | closeBrace => exact ih (hsame h) _ _ hrest
        | command mark command => exact ih (h.obey mark command _ hfirst) _ _ hrest
        | other mark name => exact ih (hsame (h.obeyCustom _ _ _ _)) _ _ hrest

theorem readText (h : Holds hasNote g) (vocabulary : Vocabulary) (comment : Bytes)
    (hgroup : ∀ token ∈ CommentToken.ofComment comment,
      token.describesGroup = false) :
    Holds (hasNote ||
        (CommentToken.ofComment comment).any CommentToken.isFootnote)
      (g.readText vocabulary comment) := by
  unfold CommentToken.ofComment at hgroup ⊢
  unfold Stretches.readText
  by_cases hblank : comment.isBlank = true
  · rw [if_pos hblank, if_pos hblank]
    simpa using h.mapGist Gist.isSome_wording?_addEmptyLine
  · rw [if_neg hblank] at hgroup
    rw [if_neg hblank, if_neg hblank]
    exact (h.mapGist fun g => g.isSome_wording?_mapWording _).readTokens
      vocabulary _ none none hgroup

theorem foldl_readText (h : Holds hasNote g) (vocabulary : Vocabulary)
    (comments : List Bytes)
    (hgroup : ∀ token ∈ comments.flatMap CommentToken.ofComment,
      token.describesGroup = false) :
    Holds (hasNote ||
        (comments.flatMap CommentToken.ofComment).any CommentToken.isFootnote)
      (comments.foldl (Stretches.readText vocabulary) g) := by
  induction comments generalizing hasNote g with
  | nil => simpa using h
  | cons comment comments ih =>
      rw [List.flatMap_cons, List.any_append, ← Bool.or_assoc]
      rw [List.flatMap_cons] at hgroup
      have hfirst := h.readText vocabulary comment fun token ht =>
        hgroup token (List.mem_append_left _ ht)
      exact ih hfirst fun token ht => hgroup token (List.mem_append_right _ ht)

end Holds

/-- Comments that describe no group have one footnote for all their footnote
commands. -/
theorem length_wordings_ofComments (vocabulary : Vocabulary)
    {comments : List Bytes}
    (hgroup : ∀ token ∈ comments.flatMap CommentToken.ofComment,
      token.describesGroup = false) :
    ((ofComments vocabulary comments).gists.filterMap Gist.wording?).length =
      min 1 ((comments.flatMap CommentToken.ofComment).countP
        CommentToken.isFootnote) := by
  have hbegin : Holds false begin := ⟨rfl, rfl⟩
  have hholds := hbegin.foldl_readText vocabulary comments hgroup
  rw [Bool.false_or] at hholds
  have hsome : (ofComments vocabulary comments).gist.wording?.isSome = _ :=
    hholds.isSome
  have hdone : (ofComments vocabulary comments).done = [] := hholds.done
  have hlength : ((ofComments vocabulary comments).gists.filterMap
      Gist.wording?).length =
        (ofComments vocabulary comments).gist.wording?.toList.length := by
    rw [gists, hdone]
    cases h : (ofComments vocabulary comments).gist.wording? <;> simp [h]
  rw [hlength, Option.length_toList, hsome]
  by_cases hany :
      (comments.flatMap CommentToken.ofComment).any CommentToken.isFootnote = true
  · have hpos := List.countP_pos_iff.2 (List.any_eq_true.1 hany)
    rw [if_pos hany]
    omega
  · have hzero := List.countP_eq_zero.2 fun token ht hnote =>
      hany (List.any_eq_true.2 ⟨token, ht, hnote⟩)
    rw [if_neg hany, hzero]
    rfl

end Stretches

end LuaGloss

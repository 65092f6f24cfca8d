import LuaGloss.Comment.Reader
import LuaGloss.Proofs.Comment.Lexing

/-!
# Prose in comments

A comment without commands is prose, and prose is kept as it is written, up to
its indentation.  The first line starts at its first word.  The lines after it
are moved to the left together, by the indentation of the first of them that is
not blank.  Blank lines at the beginning are left out.

The reader sees tokens and not lines, but it decides line by line all the same:
the tokens of a line add to a description what the line as a whole adds to it.
-/

namespace LuaGloss

namespace Bytes

def prepend (s : Bytes) : List Bytes → List Bytes
  | [] => [s]
  | line :: more => (s ++ line) :: more

/-- The lines of a text, which is cut at every line feed, together with a
carriage return in front of it. -/
def lines : Bytes → List Bytes
  | [] => [[]]
  | Byte.carriageReturn :: Byte.lineFeed :: rest => [] :: lines rest
  | Byte.lineFeed :: rest => [] :: lines rest
  | b :: rest => prepend [b] (lines rest)

def isBlankLine (line : Bytes) : Bool := line.all Byte.isIndent

def indentation (line : Bytes) : Bytes := line.takeWhile Byte.isIndent

def commonIndent (lines : List Bytes) : Bytes :=
  ((lines.find? (!isBlankLine ·)).getD []).indentation

/-- A line without an indentation that it shares with others.  A blank line
becomes empty. -/
def unindented (indent line : Bytes) : Bytes :=
  if isBlankLine line then [] else dropPrefix indent line

def stacked (lines : List Bytes) : Bytes :=
  join [Byte.lineFeed] (lines.dropWhile (·.isEmpty))

/-- A text moved to the left.  The indentation of its first line is its own. -/
def reindented (text : Bytes) : Bytes :=
  match lines text with
  | [] => []
  | first :: more =>
    stacked (first.trimLeft Byte.isIndent ::
      more.map (unindented (commonIndent more)))

/-- Whether a mark in front of the text makes a command that nobody knows.  A
group brace has no name. -/
def IsUnknownCommand (vocabulary : Vocabulary) (afterMark : Bytes) : Prop :=
  let name := afterMark.takeWhile CommentToken.isCommandByte
  name ≠ [] ∧ Command.ofName? name = none ∧ vocabulary.find? name = none

instance (vocabulary : Vocabulary) (afterMark : Bytes) :
    Decidable (IsUnknownCommand vocabulary afterMark) :=
  inferInstanceAs (Decidable (_ ∧ _ ∧ _))

/-- Whether all commands in the text are unknown. -/
def IsProse (vocabulary : Vocabulary) (text : Bytes) : Prop :=
  ∀ i < text.length, CommentToken.startsCommand (text.take i).getLast?
    (text.drop i) = true →
    IsUnknownCommand vocabulary (text.drop (i + 1))

instance (vocabulary : Vocabulary) (text : Bytes) :
    Decidable (IsProse vocabulary text) :=
  inferInstanceAs (Decidable (∀ i < text.length, _ → _))

/-! ## Lines of a text -/

theorem exists_lines_eq_cons (s : Bytes) :
    ∃ line more, lines s = line :: more := by
  fun_cases lines s
  case case4 => cases lines ‹_› <;> exact ⟨_, _, rfl⟩
  all_goals exact ⟨_, _, rfl⟩

theorem lines_append {s rest line : Bytes} {more : List Bytes}
    (h : CommentToken.Unbroken rest s) (hlines : lines rest = line :: more) :
    lines (s ++ rest) = (s ++ line) :: more := by
  induction s with
  | nil => exact hlines
  | cons b s ih =>
      have hnext := ih h.2
      rw [List.cons_append, lines, hnext]
      · rfl
      · rintro rest' rfl hrest
        have hline := h.1
        rw [hrest] at hline
        cases hline
      · rintro rfl
        cases h.1

theorem isBlankLine_append_of_head {blank line : Bytes}
    (hblank : isBlankLine blank = true) (hline : line ≠ [])
    (hhead : ∀ b ∈ line.head?, Byte.isIndent b = false) :
    isBlankLine (blank ++ line) = false ∧ (blank ++ line).indentation = blank := by
  obtain ⟨b, line, rfl⟩ := List.exists_cons_of_ne_nil hline
  have hb : Byte.isIndent b = false := hhead b rfl
  have hall := List.all_eq_true.1 hblank
  constructor
  · simp [isBlankLine, hb]
  · rw [indentation, List.takeWhile_append_of_pos hall,
      List.takeWhile_cons_of_neg (by simp [hb]), List.append_nil]

theorem isPrefixOf?_append_of_head {indent blank line : Bytes}
    (hindent : isBlankLine indent = true)
    (hhead : ∀ b ∈ line.head?, Byte.isIndent b = false) :
    indent.isPrefixOf? (blank ++ line) =
      (indent.isPrefixOf? blank).map (· ++ line) := by
  induction indent generalizing blank with
  | nil => simp [List.isPrefixOf?]
  | cons i indent ih =>
      obtain ⟨hi, hindent⟩ := Bool.and_eq_true_iff.1 hindent
      cases blank with
      | nil =>
          cases line with
          | nil => rfl
          | cons b line =>
              have hne : i ≠ b := by
                rintro rfl
                exact absurd hi (by simp [hhead i rfl])
              simp [List.isPrefixOf?, hne]
      | cons b blank =>
          rw [List.cons_append, List.isPrefixOf?, List.isPrefixOf?, ih hindent]
          split <;> rfl

theorem dropPrefix_self (s : Bytes) : dropPrefix s s = [] := by
  have hself : s.isPrefixOf? s = some [] := by
    induction s with
    | nil => rfl
    | cons b s ih => simp [List.isPrefixOf?, ih]
  rw [dropPrefix, hself]
  rfl

theorem dropPrefix_append_of_head {indent blank line : Bytes}
    (hindent : isBlankLine indent = true)
    (hhead : ∀ b ∈ line.head?, Byte.isIndent b = false) :
    dropPrefix indent (blank ++ line) = dropPrefix indent blank ++ line := by
  rw [dropPrefix, dropPrefix, isPrefixOf?_append_of_head hindent hhead]
  cases indent.isPrefixOf? blank <;> rfl

/-! ## Writing line by line -/

/-- A description with one more line, which is left out if nothing stands before
it and it is empty. -/
def addedLine (description line : Bytes) : Bytes :=
  if description = [] then line else description ++ Byte.lineFeed :: line

/-- Lines added to a description.  The indentation of the first one that is not
blank is taken away from all, unless an indentation is known. -/
def addedLines (indent : Option Bytes) (description : Bytes) : List Bytes → Bytes
  | [] => description
  | line :: more =>
    if isBlankLine line then addedLines indent (addedLine description []) more
    else
      let first := indent.getD line.indentation
      addedLines (some first) (addedLine description (dropPrefix first line)) more

theorem addedLines_some (indent description : Bytes) (lines : List Bytes) :
    addedLines (some indent) description lines =
      (lines.map (unindented indent)).foldl addedLine description := by
  induction lines generalizing description with
  | nil => rfl
  | cons line more ih =>
      rw [addedLines, List.map_cons, List.foldl_cons, unindented]
      split
      · exact ih _
      · exact ih _

theorem addedLines_none (description : Bytes) (lines : List Bytes) :
    addedLines none description lines =
      (lines.map (unindented (commonIndent lines))).foldl
        addedLine description := by
  induction lines generalizing description with
  | nil => rfl
  | cons line more ih =>
      rw [addedLines, List.map_cons, List.foldl_cons]
      by_cases hblank : isBlankLine line = true
      · have hcommon : commonIndent (line :: more) = commonIndent more := by
          simp [commonIndent, hblank]
        rw [if_pos hblank, hcommon, unindented, if_pos hblank]
        exact ih _
      · have hcommon : commonIndent (line :: more) = line.indentation := by
          simp [commonIndent, hblank]
        rw [if_neg hblank, hcommon, unindented, if_neg hblank]
        exact addedLines_some _ _ _

theorem foldl_addedLine {description : Bytes} (h : description ≠ [])
    (lines : List Bytes) :
    lines.foldl addedLine description = join [Byte.lineFeed]
      (description :: lines) := by
  induction lines generalizing description with
  | nil => simp [join]
  | cons line more ih =>
      have hnext : description ++ Byte.lineFeed :: line ≠ [] := by simp
      rw [List.foldl_cons, addedLine, if_neg h, ih hnext]
      cases more <;> simp [join, List.intercalate]

theorem foldl_addedLine_nil (lines : List Bytes) :
    lines.foldl addedLine [] = stacked lines := by
  induction lines with
  | nil => rfl
  | cons line more ih =>
      rw [List.foldl_cons, addedLine, if_pos rfl]
      cases line with
      | nil => exact ih
      | cons b line => exact foldl_addedLine (by simp) more

end Bytes

/-! ## Tokens as text -/

namespace CommentToken

theorem ofName?_name (c : Command) : Command.ofName? c.name = some c := by
  cases c <;> decide +kernel

theorem isMark_of_startsCommand {before : Option UInt8} {mark : UInt8}
    {rest : Bytes} (h : startsCommand before (mark :: rest) = true) :
    mark = Byte.backslash ∨ mark = Byte.at_ := by
  cases rest with
  | nil => cases h
  | cons next rest =>
      simp only [startsCommand, Bool.and_eq_true, Bool.or_eq_true, beq_iff_eq] at h
      exact h.1.1

theorem unbroken_cons_name {before : Option UInt8} {mark : UInt8}
    {name rest : Bytes}
    (hmark : startsCommand before (mark :: (name ++ rest)) = true)
    (hname : (name ++ rest).takeWhile isCommandByte = name) :
    Unbroken rest (mark :: name) := by
  refine Unbroken.of_forall (List.forall_mem_cons.2 ⟨?_, fun b hb => ?_⟩) rest
  · rcases isMark_of_startsCommand hmark with rfl | rfl <;> decide
  · rw [← hname] at hb
    exact not_lineBreak_of_isCommandByte
      (List.all_eq_true.1 List.all_takeWhile b hb)

theorem Fronts.unbroken {before rest : Bytes} {t : CommentToken}
    (h : t.Fronts before rest)
    (hline : ∀ lineBreak indent, t ≠ .newLine lineBreak indent) :
    Unbroken rest t.raw := by
  cases h with
  | newLine _ _ _ => exact absurd rfl (hline _ _)
  | openBrace _ => exact .of_forall (by decide +kernel) rest
  | closeBrace _ => exact .of_forall (by decide +kernel) rest
  | command hmark hname => exact unbroken_cons_name hmark hname
  | other hmark hname _ => exact unbroken_cons_name hmark hname
  | text _ hunbroken _ => exact hunbroken

/-- Whether a reader that knows the vocabulary takes the token as text. -/
def IsProse (vocabulary : Vocabulary) : CommentToken → Prop
  | endOfText | text _ | newLine _ _ => True
  | other _ name => vocabulary.find? name = none
  | openBrace | closeBrace | command _ _ => False

theorem isUnknownCommand_of_startsCommand {vocabulary : Vocabulary}
    {before rest : Bytes} {mark : UInt8}
    (hprose : (before ++ mark :: rest).IsProse vocabulary)
    (hmark : startsCommand before.getLast? (mark :: rest) = true) :
    Bytes.IsUnknownCommand vocabulary rest := by
  have hplace := hprose before.length (by simp)
  simp only [List.take_left, List.drop_left] at hplace
  have hafter : (before ++ mark :: rest).drop (before.length + 1) = rest := by simp
  rw [hafter] at hplace
  exact hplace hmark

theorem isProse_of_lexes {vocabulary : Vocabulary} {before s : Bytes}
    {ts : List CommentToken} (h : Lexes before s ts)
    (hprose : (before ++ s).IsProse vocabulary) :
    ∀ t ∈ ts, t.IsProse vocabulary := by
  induction h with
  | done before => simp [IsProse]
  | @token before rest t ts hfronts _ ih =>
      rw [← List.append_assoc] at hprose
      refine List.forall_mem_cons.2 ⟨?_, ih hprose⟩
      rw [List.append_assoc] at hprose
      cases hfronts with
      | newLine _ _ _ => trivial
      | text _ _ _ => trivial
      | openBrace hmark =>
          exact absurd rfl (isUnknownCommand_of_startsCommand hprose hmark).1
      | closeBrace hmark =>
          exact absurd rfl (isUnknownCommand_of_startsCommand hprose hmark).1
      | @command mark c hmark hname =>
          have hunknown : Bytes.IsUnknownCommand vocabulary (c.name ++ rest) :=
            isUnknownCommand_of_startsCommand hprose hmark
          have hname' := hunknown.2.1
          rw [hname, ofName?_name] at hname'
          cases hname'
      | @other mark name hmark hname _ =>
          have hunknown : Bytes.IsUnknownCommand vocabulary (name ++ rest) :=
            isUnknownCommand_of_startsCommand hprose hmark
          exact hname ▸ hunknown.2.2

end CommentToken

namespace Reading

/-- A description after tokens of which all but the new lines are text. -/
def described (indent : Option Bytes) (description : Bytes) :
    List CommentToken → Bytes
  | [] | .endOfText :: _ => description
  | .newLine _ blank :: rest =>
    let first := indent.getD blank
    described (if hasLine rest then some first else indent)
      (appendLine description (if hasLine rest then Bytes.dropPrefix first blank
        else [])) rest
  | token :: rest => described indent (appendText description token.raw) rest

theorem appendText_nil (description : Bytes) :
    appendText description [] = description := by
  simp [appendText, Bytes.trimLeft]

theorem getLastD_append {text : Bytes} (description : Bytes)
    (h : Byte.lineFeed ∉ text) (hne : text ≠ []) :
    (description ++ text).getLastD Byte.lineFeed ≠ Byte.lineFeed := by
  rw [List.getLastD_eq_getLast?, List.getLast?_append_of_ne_nil _ hne,
    List.getLast?_eq_getLast_of_ne_nil hne]
  intro hlast
  exact h (hlast ▸ List.getLast_mem hne)

theorem appendText_appendText (description more : Bytes) {text : Bytes}
    (h : Byte.lineFeed ∉ text) :
    appendText (appendText description text) more =
      appendText description (text ++ more) := by
  by_cases hstart : description.getLastD Byte.lineFeed = Byte.lineFeed
  · simp only [appendText, if_pos hstart, Bytes.trimLeft, List.dropWhile_append]
    by_cases hindent : text.dropWhile Byte.isIndent = []
    · rw [hindent, List.append_nil, if_pos hstart]
      rfl
    · have hmem : Byte.lineFeed ∉ text.dropWhile Byte.isIndent :=
        fun hb => h (List.dropWhile_subset _ hb)
      rw [if_neg (getLastD_append description hmem hindent),
        if_neg (by simpa using hindent), List.append_assoc]
  · simp only [appendText, if_neg hstart]
    by_cases hempty : text = []
    · rw [hempty, List.append_nil, if_neg hstart]
      rfl
    · rw [if_neg (getLastD_append description h hempty), List.append_assoc]

theorem appendLine_nil (description : Bytes) :
    appendLine description [] = Bytes.addedLine description [] := by
  cases description <;> rfl

theorem trimLeft_eq_self {line : Bytes}
    (hhead : ∀ b ∈ line.head?, Byte.isIndent b = false) :
    line.trimLeft Byte.isIndent = line := by
  cases line with
  | nil => rfl
  | cons b line => exact List.dropWhile_cons_of_neg (by simp [hhead b rfl])

theorem appendText_of_head (description : Bytes) {line : Bytes}
    (hhead : ∀ b ∈ line.head?, Byte.isIndent b = false) :
    appendText description line = description ++ line := by
  rw [appendText, trimLeft_eq_self hhead, ite_self]

theorem appendText_appendLine {description indent blank line : Bytes}
    (hindent : Bytes.isBlankLine indent = true)
    (hhead : ∀ b ∈ line.head?, Byte.isIndent b = false)
    (hfirst : description = [] → indent = blank) :
    appendText (appendLine description (Bytes.dropPrefix indent blank)) line =
      Bytes.addedLine description (Bytes.dropPrefix indent (blank ++ line)) := by
  rw [Bytes.dropPrefix_append_of_head hindent hhead, appendText_of_head _ hhead]
  cases description with
  | nil => simp [hfirst rfl, Bytes.dropPrefix_self, appendLine, Bytes.addedLine]
  | cons b description => simp [appendLine, Bytes.addedLine]

open LuaGloss.CommentToken in
theorem lines_newLine {lineBreak : Bytes}
    (h : lineBreak = [Byte.lineFeed] ∨
      lineBreak = [Byte.carriageReturn, Byte.lineFeed])
    (rest : Bytes) :
    Bytes.lines (lineBreak ++ rest) = [] :: Bytes.lines rest := by
  rcases h with rfl | rfl <;> rfl

open LuaGloss.CommentToken in
theorem hasLine_iff {before s line : Bytes} {ts : List CommentToken}
    {more : List Bytes} (h : Lexes before s ts)
    (hlines : Bytes.lines s = line :: more) :
    (hasLine ts = true → line ≠ [] ∧ line.head? = s.head?) ∧
    (hasLine ts = false → line = []) := by
  cases h with
  | done before =>
      obtain ⟨rfl, rfl⟩ := List.cons.inj hlines
      simp [hasLine]
  | @token _ rest t ts hfronts _ =>
      by_cases hline : ∃ lineBreak indent, t = .newLine lineBreak indent
      · obtain ⟨lineBreak, indent, rfl⟩ := hline
        cases hfronts with
        | newLine hbreak _ _ =>
            rw [raw, List.append_assoc, lines_newLine hbreak] at hlines
            simp [hasLine, (List.cons.inj hlines).1]
      · obtain ⟨line', more', hrest⟩ := Bytes.exists_lines_eq_cons rest
        have hne := raw_ne_nil hfronts
        have hraw :=
          Bytes.lines_append (hfronts.unbroken fun _ _ heq =>
            hline ⟨_, _, heq⟩) hrest
        obtain ⟨rfl, -⟩ := List.cons.inj (hlines.symm.trans hraw)
        have hhas : hasLine (t :: ts) = true := by
          cases hfronts with
          | newLine _ _ _ => exact absurd ⟨_, _, rfl⟩ hline
          | _ => rfl
        obtain ⟨b, word, hword⟩ := List.exists_cons_of_ne_nil hne
        simp [hhas, hword]

open LuaGloss.CommentToken in
/-- Tokens add to a description what the lines of their text add to it. -/
theorem described_eq_addedLines {before s line : Bytes} {ts : List CommentToken}
    {more : List Bytes} (h : Lexes before s ts)
    (hlines : Bytes.lines s = line :: more) {indent : Option Bytes}
    {description : Bytes} (hindent : ∀ i ∈ indent, Bytes.isBlankLine i = true)
    (hfirst : appendText description line = [] → indent = none) :
    described indent description ts =
      Bytes.addedLines indent (appendText description line) more := by
  induction h generalizing line more indent description with
  | done before =>
      obtain ⟨rfl, rfl⟩ := List.cons.inj hlines
      exact (appendText_nil description).symm
  | @token before rest t ts hfronts hrest ih =>
      obtain ⟨line', more', hlines'⟩ := Bytes.exists_lines_eq_cons rest
      by_cases hline : ∃ lineBreak blank, t = .newLine lineBreak blank
      · obtain ⟨lineBreak, blank, rfl⟩ := hline
        cases hfronts with
        | newLine hbreak hblank hhead =>
            have hunbroken : Unbroken rest blank :=
              .of_forall (fun b hb => not_lineBreak_of_isIndent (hblank b hb)) rest
            rw [raw, List.append_assoc, lines_newLine hbreak,
              Bytes.lines_append hunbroken hlines'] at hlines
            obtain ⟨rfl, rfl⟩ := List.cons.inj hlines
            rw [appendText_nil] at hfirst ⊢
            obtain ⟨hmore, hnone⟩ := hasLine_iff hrest hlines'
            have hblankLine : Bytes.isBlankLine blank = true :=
              List.all_eq_true.2 hblank
            rw [described, Bytes.addedLines]
            dsimp only
            by_cases hnext : hasLine ts = true
            · obtain ⟨hne, hsame⟩ := hmore hnext
              rw [← hsame] at hhead
              obtain ⟨hfull, hindentation⟩ :=
                Bytes.isBlankLine_append_of_head hblankLine hne hhead
              have hcommon : Bytes.isBlankLine (indent.getD blank) = true := by
                cases indent with
                | none => exact hblankLine
                | some i => exact hindent i rfl
              have hown : description = [] → indent.getD blank = blank :=
                fun hempty => by rw [hfirst hempty]; rfl
              have hadded := appendText_appendLine hcommon hhead hown
              rw [if_pos hnext, if_pos hnext, if_neg (by simp [hfull]),
                hindentation, ← hadded]
              refine ih hlines' (fun i hi => Option.mem_some.1 hi ▸ hcommon)
                fun hempty => ?_
              rw [appendText_of_head _ hhead] at hempty
              exact absurd (List.append_eq_nil_iff.1 hempty).2 hne
            · obtain rfl := hnone (by simpa using hnext)
              rw [if_neg hnext, if_neg hnext, List.append_nil,
                if_pos hblankLine, ← appendLine_nil]
              refine (ih hlines' hindent fun hempty => hfirst ?_).trans
                (by rw [appendText_nil])
              rw [appendText_nil] at hempty
              cases description with
              | nil => rfl
              | cons b description => simp [appendLine] at hempty
      · have hunbroken := hfronts.unbroken fun _ _ heq => hline ⟨_, _, heq⟩
        rw [Bytes.lines_append hunbroken hlines'] at hlines
        obtain ⟨rfl, rfl⟩ := List.cons.inj hlines
        rw [← appendText_appendText description line'
          hunbroken.lineFeed_notMem] at hfirst ⊢
        rw [described, ih hlines' hindent hfirst]
        · rintro rfl
          cases hfronts
        · exact fun _ _ heq => hline ⟨_, _, heq⟩

def withProse (description comment : Bytes) : Bytes :=
  if comment.isBlank then appendLine description []
  else described none (appendLine description []) (CommentToken.tokenize comment)

theorem withProse_nil {comment : Bytes} (h : comment.isBlank = false) :
    withProse [] comment = comment.reindented := by
  obtain ⟨first, more, hlines⟩ := Bytes.exists_lines_eq_cons comment
  have hfirst :
      appendText (appendLine [] []) first = first.trimLeft Byte.isIndent := rfl
  rw [withProse, if_neg (by simp [h]), Bytes.reindented, hlines,
    described_eq_addedLines (CommentToken.lexes_tokenize comment) hlines
      (by simp) fun _ => rfl, hfirst,
    Bytes.addedLines_none]
  exact Bytes.foldl_addedLine_nil (_ :: _)

end Reading

/-! ## What the reader does with prose -/

namespace Docs

theorem modifyBlock_modifyBlock (d : Docs) (id : BlockId) (f g : Block → Block) :
    (d.modifyBlock id f).modifyBlock id g = d.modifyBlock id fun b => g (f b) := by
  have hblocks : (d.blocks.modify id f).modify id g =
      d.blocks.modify id fun b => g (f b) := by
    apply Array.ext_getElem?
    intro i
    simp only [Array.getElem?_modify]
    split
    · exact Option.map_map _ _ _
    · rfl
  simp only [modifyBlock, hblocks]

theorem modifyBlock_self (d : Docs) (id : BlockId) :
    d.modifyBlock id (fun b => b) = d := by
  have hblocks : d.blocks.modify id (fun b => b) = d.blocks := by
    apply Array.ext_getElem?
    intro i
    simp only [Array.getElem?_modify]
    split <;> simp
  simp only [modifyBlock, hblocks]

end Docs

namespace Reading

theorem modifyBlock_modifyBlock (s : Reading) (f g : Block → Block) :
    (s.modifyBlock f).modifyBlock g = s.modifyBlock fun b => g (f b) :=
  congrArg (fun docs => s.mapCatalog fun c => { c with docs })
    (s.reader.catalog.docs.modifyBlock_modifyBlock _ f g)

theorem modifyBlock_self (s : Reading) : s.modifyBlock (fun b => b) = s :=
  congrArg (fun docs => s.mapCatalog fun c => { c with docs })
    (s.reader.catalog.docs.modifyBlock_self _)

/-- Changes the detailed description of the block that the comment writes
into. -/
def modifyDetailed (s : Reading) (f : Bytes → Bytes) : Reading :=
  s.modifyBlock fun b => { b with detailed := f b.detailed }

theorem modifyDetailed_modifyDetailed (s : Reading) (f g : Bytes → Bytes) :
    (s.modifyDetailed f).modifyDetailed g = s.modifyDetailed fun d => g (f d) :=
  modifyBlock_modifyBlock s _ _

variable {s : Reading}

theorem addText_detailed (h : s.place.part = .detailed) (text : Bytes) :
    s.addText text = s.modifyDetailed (appendText · text) := by
  rw [addText, h]
  rfl

theorem addLine_detailed (h : s.place.part = .detailed) (indent : Bytes) :
    s.addLine indent = s.modifyDetailed (appendLine · indent) := by
  rw [addLine, h]
  rfl

theorem addEmptyLine_detailed (h : s.place.part = .detailed) :
    s.addEmptyLine = s.modifyDetailed (appendLine · []) := by
  rw [addEmptyLine, if_pos h, addLine_detailed h]

theorem addNewLine_detailed (h : s.place.part = .detailed)
    (indent blank : Bytes) (after : List CommentToken) :
    s.addNewLine indent blank after =
      s.modifyDetailed
        (appendLine · (if hasLine after then
          Bytes.dropPrefix indent blank else [])) := by
  unfold addNewLine hasLine
  split
  · exact addEmptyLine_detailed h
  · exact addLine_detailed h []
  · exact addLine_detailed h _

theorem readTokens_prose {vocabulary : Vocabulary} {tokens : List CommentToken}
    (hprose : ∀ t ∈ tokens, t.IsProse vocabulary) {s : Reading}
    (hvocabulary : s.reader.catalog.vocabulary = vocabulary)
    (hpart : s.place.part = .detailed) (indent : Option Bytes)
    {left : Option Bytes} (hleft : ∀ text ∈ left, text = argumentOf tokens) :
    s.readTokens indent left tokens =
      s.modifyDetailed (described indent · tokens) := by
  induction tokens generalizing s indent left with
  | nil => exact (modifyBlock_self s).symm
  | cons token rest ih =>
      obtain ⟨htoken, hrest⟩ := List.forall_mem_cons.1 hprose
      -- Whatever a token does to the description, the rest is read as before.
      have hnext (f : Bytes → Bytes) (indent : Option Bytes) {left : Option Bytes}
          (hleft : ∀ text ∈ left, text = argumentOf rest) :
            (s.modifyDetailed f).readTokens indent left rest =
            s.modifyDetailed fun d => described indent (f d) rest := by
        rw [ih hrest (s := s.modifyDetailed f) hvocabulary hpart indent hleft,
          modifyDetailed_modifyDetailed]
      cases token with
      | endOfText => exact (modifyBlock_self s).symm
      | text text =>
          have htext : left.getD text = text := by
            cases left with
            | none => rfl
            | some left => exact hleft left rfl
          rw [readTokens, htext, addText_detailed hpart, hnext _ _ (by simp)]
          rfl
      | newLine lineBreak blank =>
          rw [readTokens, addNewLine_detailed hpart, hnext _ _ (by simp)]
          rfl
      | other mark name =>
          have hunknown : s.reader.catalog.vocabulary.find? name = none :=
            hvocabulary ▸ htoken
          rw [readTokens, obeyCustom, hunknown]
          dsimp only
          rw [addText_detailed hpart, hnext _ _ (by simp)]
          rfl
      | openBrace => cases htoken
      | closeBrace => cases htoken
      | command mark c => cases htoken

theorem readText_prose {comment : Bytes}
    (hprose : comment.IsProse s.reader.catalog.vocabulary)
    (hpart : s.place.part = .detailed) :
    s.readText comment = s.modifyDetailed (withProse · comment) := by
  unfold readText withProse
  split
  · exact addEmptyLine_detailed hpart
  · have htokens :=
      CommentToken.isProse_of_lexes (CommentToken.lexes_tokenize comment) hprose
    rw [addLine_detailed hpart,
      readTokens_prose htokens (s := s.modifyDetailed _) rfl hpart none
        (by simp), modifyDetailed_modifyDetailed]

/-- What a comment that is prose makes of the block that it goes into. -/
def withComment (comment : Bytes) (b : Block) : Block :=
  { b with
    source :=
      if b.source.isEmpty then comment else b.source ++ Byte.lineFeed :: comment
    detailed := withProse b.detailed comment }

theorem read_prose {comment : Bytes}
    (hprose : comment.IsProse s.reader.catalog.vocabulary)
    (hpart : s.place.part = .detailed) :
    (s.addSource comment).readText comment =
      s.modifyBlock (withComment comment) := by
  rw [readText_prose (s := s.addSource comment) hprose hpart, modifyDetailed,
    addSource, modifyBlock_modifyBlock]
  rfl

end Reading

namespace CommentReader

theorem blocks_noteDropped (r : CommentReader) :
    r.noteDropped.catalog.docs.blocks = r.catalog.docs.blocks := by
  unfold noteDropped
  split
  · split <;> rfl
  · rfl

theorem vocabulary_noteDropped (r : CommentReader) :
    r.noteDropped.catalog.vocabulary = r.catalog.vocabulary := by
  unfold noteDropped
  split
  · split <;> rfl
  · rfl

theorem modify_push_size (blocks : Array Block) (b : Block) (f : Block → Block) :
    (blocks.push b).modify blocks.size f = blocks.push (f b) := by
  apply Array.ext_getElem?
  intro i
  rw [Array.getElem?_modify, Array.getElem?_push, Array.getElem?_push]
  by_cases hi : blocks.size = i
  · simp [hi]
  · simp [hi, Ne.symm hi]

theorem readAhead_new (r : CommentReader) {text : Bytes} (file : Bytes) (pos : Pos)
    (hprose : text.IsProse r.catalog.vocabulary) :
    r.readAhead text file pos false =
      let started := (r.startNew file pos).modifyBlock (Reading.withComment text)
      { started.reader with resume := some started.place } := by
  have hstart : (r.startNew file pos).reader.catalog.vocabulary =
      r.catalog.vocabulary := vocabulary_noteDropped r
  rw [← hstart] at hprose
  exact congrArg (fun done : Reading =>
    { done.reader with resume := some done.place }) (Reading.read_prose hprose rfl)

/-- Prose is kept as it is written up to its indentation.  Nothing but the
detailed description of a new block comes out of it, and this block waits for a
declaration. -/
theorem readAhead_keeps_prose (r : CommentReader) (text file : Bytes)
    (pos : Pos) (hprose : text.IsProse r.catalog.vocabulary)
    (htext : text.isBlank = false) :
    (r.readAhead text file pos false).pending = some r.catalog.docs.blocks.size ∧
      (r.readAhead text file pos false).catalog.docs.blocks =
        r.catalog.docs.blocks.push
          { kind := .normal, file, pos, source := text,
            detailed := text.reindented } := by
  have hnew : Reading.withComment text { kind := .normal, file, pos } =
      { kind := .normal, file, pos, source := text,
        detailed := text.reindented } := by
    rw [Reading.withComment, Reading.withProse_nil htext]
    rfl
  rw [readAhead_new r file pos hprose]
  constructor
  · exact congrArg (fun blocks : Array Block => some blocks.size)
      (blocks_noteDropped r)
  · rw [← blocks_noteDropped r, ← hnew]
    exact modify_push_size r.noteDropped.catalog.docs.blocks _ _

/-- An unknown command stays where it is, the second line keeps what it has
beyond the indentation of the first line after the beginning, and a line of
spaces becomes empty. -/
theorem readAhead_keeps_prose_sample : let vocabulary : Vocabulary :=
  ⟨[⟨utf8 "luastruct", utf8 "struct", .struct, false, false⟩]⟩
    let text := utf8 " \r\n  \\lua it \n\t\n  \t b@struct"
    text.IsProse vocabulary ∧ text.isBlank = false ∧
      ((ofCatalog (.empty vocabulary) [0]).readAhead text (utf8 "a.lua") ⟨0, 9,
        1, 1⟩ false).catalog.docs.blocks =
        #[{ kind := .normal, file := utf8 "a.lua", pos := ⟨0, 9, 1, 1⟩,
            source := text,
            detailed := utf8 "\\lua it \n\n\t b@struct" }] := by
  have hprose : (utf8 " \r\n  \\lua it \n\t\n  \t b@struct").IsProse
      ⟨[⟨utf8 "luastruct", utf8 "struct", .struct, false, false⟩]⟩ := by
    decide +kernel
  have htext : (utf8 " \r\n  \\lua it \n\t\n  \t b@struct").isBlank =
      false := by decide +kernel
  refine ⟨hprose, htext, (readAhead_keeps_prose _ _ _ _ hprose htext).2.trans ?_⟩
  decide +kernel

end CommentReader

end LuaGloss

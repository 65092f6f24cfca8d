import LuaGloss.Comment.Token
import Mathlib.Data.List.Basic

/-!
# How a comment falls into tokens

The tokens of a comment cover its text one after the other, without a gap.  What
a token can be depends on the byte in front of it and on what follows it: a line
break takes all the indentation behind it, a command its whole name, and a run
of text ends where a line or a command begins.  Together these rules are what is
meant by canonical tokens.
-/

namespace LuaGloss

namespace CommentToken

/-! ## Lines inside a text -/

def Unbroken (rest : Bytes) : Bytes → Prop
  | [] => True
  | b :: s => startsLine (b :: (s ++ rest)) = false ∧ Unbroken rest s

theorem startsLine_eq_false {b : UInt8} (hfeed : b ≠ Byte.lineFeed)
    (hreturn : b ≠ Byte.carriageReturn) (rest : Bytes) :
    startsLine (b :: rest) = false := by
  unfold startsLine
  split
  next heq => exact absurd (List.cons.inj heq).1 hfeed
  next heq => exact absurd (List.cons.inj heq).1 hreturn
  next => rfl

theorem ne_lineFeed_of_startsLine {b : UInt8} {rest : Bytes}
    (h : startsLine (b :: rest) = false) : b ≠ Byte.lineFeed := by
  rintro rfl
  cases h

theorem Unbroken.lineFeed_notMem {rest s : Bytes} (h : Unbroken rest s) :
    Byte.lineFeed ∉ s := by
  induction s with
  | nil => simp
  | cons b s ih =>
      intro hmem
      rcases List.mem_cons.1 hmem with hfirst | hmore
      · exact ne_lineFeed_of_startsLine h.1 hfirst.symm
      · exact ih h.2 hmore

theorem Unbroken.of_forall {s : Bytes}
    (h : ∀ b ∈ s, b ≠ Byte.lineFeed ∧ b ≠ Byte.carriageReturn) (rest : Bytes) :
    Unbroken rest s := by
  induction s with
  | nil => trivial
  | cons b s ih =>
      obtain ⟨hb, hs⟩ := List.forall_mem_cons.1 h
      exact ⟨startsLine_eq_false hb.1 hb.2 _, ih hs⟩

theorem Unbroken.of_lineFeed_notMem {s : Bytes} (h : Byte.lineFeed ∉ s) :
    Unbroken [] s := by
  induction s with
  | nil => trivial
  | cons b s ih =>
      obtain ⟨hb, hs⟩ := not_or.1 (mt List.mem_cons.2 h)
      refine ⟨?_, ih hs⟩
      rw [List.append_nil]
      unfold startsLine
      split
      next heq => exact absurd (List.cons.inj heq).1.symm hb
      next heq => exact absurd ((List.cons.inj heq).2 ▸ List.mem_cons_self) hs
      next => rfl

theorem not_lineBreak_of_isIndent {b : UInt8} (h : Byte.isIndent b = true) :
    b ≠ Byte.lineFeed ∧ b ≠ Byte.carriageReturn := by
  constructor <;> rintro rfl <;> exact absurd h (by decide)

theorem not_lineBreak_of_isCommandByte {b : UInt8} (h : isCommandByte b = true) :
    b ≠ Byte.lineFeed ∧ b ≠ Byte.carriageReturn := by
  constructor <;> rintro rfl <;> exact absurd h (by decide)

/-! ## Commands inside a text -/

/-- Whether a command or a group brace begins between two texts: there is a
mark, which is not glued to a word, with a letter behind it, or an at sign with
a brace. -/
def CommandBegins (before after : Bytes) : Prop :=
  (∀ b ∈ before.getLast?, isWordByte b = false) ∧
    ∃ mark next rest, after = mark :: next :: rest ∧
    ((mark = Byte.backslash ∨ mark = Byte.at_) ∧ Byte.isLetter next = true ∨
      mark = Byte.at_ ∧ (next = Byte.openBrace ∨ next = Byte.closeBrace))

theorem startsCommand_iff {before after : Bytes} :
    startsCommand before.getLast? after = true ↔ CommandBegins before after := by
  have hglued : (!before.getLast?.any isWordByte) = true ↔
      ∀ b ∈ before.getLast?, isWordByte b = false := by
    cases before.getLast? <;> simp
  unfold startsCommand CommandBegins
  split
  next mark next rest =>
    rw [Bool.and_eq_true, Bool.and_eq_true, hglued]
    simp only [Bool.or_eq_true, Bool.and_eq_true, beq_iff_eq, List.cons.injEq]
    constructor
    · rintro ⟨⟨hmark, hbefore⟩, hletter | hbrace⟩
      · exact ⟨hbefore, mark, next, rest, ⟨rfl, rfl, rfl⟩, .inl ⟨hmark, hletter⟩⟩
      · exact ⟨hbefore, mark, next, rest, ⟨rfl, rfl, rfl⟩, .inr hbrace⟩
    · rintro ⟨hbefore, _, _, _, ⟨rfl, rfl, rfl⟩, ⟨hmark, hletter⟩ | hbrace⟩
      · exact ⟨⟨hmark, hbefore⟩, .inl hletter⟩
      · exact ⟨⟨.inr hbrace.1, hbefore⟩, .inr hbrace⟩
  next hshort =>
    constructor
    · simp
    · rintro ⟨-, mark, next, rest, rfl, -⟩
      exact absurd rfl (hshort mark next rest)

/-- No command begins inside the text, where `before` stands in front of it and
`rest` follows it. -/
def Unmarked (before rest : Bytes) : Bytes → Prop
  | [] => True
  | b :: s =>
    startsCommand before.getLast? (b :: (s ++ rest)) = false ∧
    Unmarked (before ++ [b]) rest s

/-- Whether a run of text ends behind `before`: a line or a command begins
there, or nothing follows. -/
def Stops (before rest : Bytes) : Prop :=
  rest = [] ∨ startsLine rest = true ∨ startsCommand before.getLast? rest = true

theorem Unmarked.startsCommand_eq_false {before rest front back : Bytes}
    (h : Unmarked before rest (front ++ back)) (hback : back ≠ []) :
    startsCommand (before ++ front).getLast? (back ++ rest) = false := by
  induction front generalizing before with
  | nil =>
      obtain ⟨b, back, rfl⟩ := List.exists_cons_of_ne_nil hback
      rw [List.append_nil]
      exact h.1
  | cons b front ih =>
      have hmore := ih h.2
      rwa [List.append_assoc] at hmore

/-! ## What stands at the front -/

/-- What may stand at the front of a text, with `before` in front of it and
`rest` behind it. -/
inductive Fronts (before rest : Bytes) : CommentToken → Prop
  | newLine {lineBreak indent : Bytes} :
      lineBreak = [Byte.lineFeed] ∨
      lineBreak = [Byte.carriageReturn, Byte.lineFeed] →
      (∀ b ∈ indent, Byte.isIndent b = true) →
      (∀ b ∈ rest.head?, Byte.isIndent b = false) →
      Fronts before rest (newLine lineBreak indent)
  | openBrace :
      startsCommand before.getLast? (openBrace.raw ++ rest) = true →
      Fronts before rest openBrace
  | closeBrace :
      startsCommand before.getLast? (closeBrace.raw ++ rest) = true →
      Fronts before rest closeBrace
  | command {mark : UInt8} {c : Command} :
      startsCommand before.getLast? ((command mark c).raw ++ rest) = true →
      (c.name ++ rest).takeWhile isCommandByte = c.name →
      Fronts before rest (command mark c)
  | other {mark : UInt8} {name : Bytes} :
      startsCommand before.getLast? ((other mark name).raw ++ rest) = true →
      (name ++ rest).takeWhile isCommandByte = name →
      Command.ofName? name = none ∧ name ≠ [] →
      Fronts before rest (other mark name)
  | text {s : Bytes} :
      s ≠ [] → Unbroken rest s → Unmarked before rest s ∧
      Stops (before ++ s) rest →
      Fronts before rest (text s)

/-- The tokens of a text that `before` stands in front of. -/
inductive Lexes : (before : Bytes) → Bytes → List CommentToken → Prop
  | done (before : Bytes) : Lexes before [] [endOfText]
  | token {before rest : Bytes} {t : CommentToken} {ts : List CommentToken} :
      t.Fronts before rest →
      Lexes (before ++ t.raw) rest ts → Lexes before (t.raw ++ rest) (t :: ts)

theorem raw_ne_nil {before rest : Bytes} {t : CommentToken}
    (h : t.Fronts before rest) : t.raw ≠ [] := by
  cases h with
  | newLine hbreak _ _ => rcases hbreak with rfl | rfl <;> simp [raw]
  | text hne _ _ => exact hne
  | openBrace _ => simp only [raw]; decide
  | closeBrace _ => simp only [raw]; decide
  | command _ _ => simp [raw]
  | other _ _ _ => simp [raw]

theorem textRun_spec (before : Bytes) (b : UInt8) (s : Bytes) :
    ∃ rest, s = textRun b s ++ rest ∧ Unbroken rest (textRun b s) ∧
      Unmarked (before ++ [b]) rest (textRun b s) ∧
      Stops (before ++ b :: textRun b s) rest := by
  induction s generalizing before b with
  | nil => exact ⟨[], rfl, trivial, trivial, .inl rfl⟩
  | cons c s ih =>
      unfold textRun
      split
      next hstops =>
        refine ⟨c :: s, rfl, trivial, trivial, .inr ?_⟩
        rw [List.getLast?_concat]
        exact Bool.or_eq_true_iff.1 hstops
      next hgoes =>
        obtain ⟨hline, hcommand⟩ := not_or.1 (mt Bool.or_eq_true_iff.2 hgoes)
        obtain ⟨rest, hrest, hunbroken, hunmarked, hstops⟩ := ih (before ++ [b]) c
        rw [List.append_assoc] at hstops
        refine ⟨rest, by rw [List.cons_append, ← hrest],
          ⟨?_, hunbroken⟩, ⟨?_, hunmarked⟩, hstops⟩
        · rw [← hrest]
          simpa using hline
        · rw [← hrest, List.getLast?_concat]
          simpa using hcommand

theorem name_of_ofName? {name : Bytes} {c : Command}
    (h : Command.ofName? name = some c) : c.name = name := by
  have hfound := List.find?_some h
  simpa using hfound

/-- Whether what was found covers the beginning of `b :: rest`. -/
def Covers (before : Bytes) (b : UInt8) (rest : Bytes)
    (found : CommentToken × Nat) : Prop :=
  ∃ word after, rest = word ++ after ∧ found.2 = word.length ∧
    found.1.raw = b :: word ∧ found.1.Fronts before after

theorem covers_ofMark {before rest : Bytes} {mark : UInt8}
    (h : startsCommand before.getLast? (mark :: rest) = true)
    (hname : rest.takeWhile isCommandByte ≠ []) :
    Covers before mark rest (ofMark mark rest) := by
  have hsplit :
      rest = rest.takeWhile isCommandByte ++ rest.dropWhile isCommandByte :=
    List.takeWhile_append_dropWhile.symm
  refine ⟨rest.takeWhile isCommandByte, rest.dropWhile isCommandByte, hsplit, ?_⟩
  unfold ofMark
  dsimp only
  split
  next c hc =>
    have hname := name_of_ofName? hc
    refine ⟨rfl, by simp [raw, hname], .command ?_ ?_⟩
    · simp only [raw, hname, List.cons_append, ← hsplit]
      exact h
    · rw [hname, ← hsplit]
  next hnone =>
    refine ⟨rfl, rfl, .other ?_ ?_ ⟨hnone, hname⟩⟩
    · simp only [raw, List.cons_append, ← hsplit]
      exact h
    · rw [← hsplit]

theorem takeWhile_isIndent (s : Bytes) :
    (∀ b ∈ s.takeWhile Byte.isIndent, Byte.isIndent b = true) ∧
    ∀ b ∈ (s.dropWhile Byte.isIndent).head?, Byte.isIndent b = false := by
  refine ⟨fun b hb => List.all_eq_true.1 List.all_takeWhile b hb, fun b hb => ?_⟩
  have hhead := List.head?_dropWhile_not Byte.isIndent s
  rw [Option.mem_def.1 hb] at hhead
  simpa using hhead

theorem covers_newLine {b : UInt8} {rest : Bytes} (before : Bytes)
    (h : startsLine (b :: rest) = true) :
    Covers before b rest (front before.getLast? b rest) := by
  unfold front
  rw [if_pos h]
  unfold startsLine at h
  split at h
  next rest' heq =>
    obtain ⟨rfl, rfl⟩ := List.cons.inj heq
    obtain ⟨hindent, hrest⟩ := takeWhile_isIndent rest
    refine ⟨rest.takeWhile Byte.isIndent, rest.dropWhile Byte.isIndent, ?_, ?_,
      ?_, .newLine (.inl rfl) hindent hrest⟩
    · exact List.takeWhile_append_dropWhile.symm
    · simp
    · simp [raw]
  next rest' heq =>
    obtain ⟨rfl, rfl⟩ := List.cons.inj heq
    obtain ⟨hindent, hrest⟩ := takeWhile_isIndent rest'
    have hne : Byte.carriageReturn ≠ Byte.lineFeed := by decide
    refine ⟨Byte.lineFeed :: rest'.takeWhile Byte.isIndent,
      rest'.dropWhile Byte.isIndent, ?_, ?_, ?_,
      .newLine (.inr rfl) hindent hrest⟩
    · rw [List.cons_append, List.takeWhile_append_dropWhile]
      rfl
    · simp [hne, Nat.add_comm]
    · simp [hne, raw]
  next => cases h

/-- Whatever is found at the front of a text covers its beginning. -/
theorem covers_front (before : Bytes) (b : UInt8) (rest : Bytes) :
    Covers before b rest (front before.getLast? b rest) := by
  by_cases hline : startsLine (b :: rest) = true
  · exact covers_newLine before hline
  · unfold front
    rw [if_neg hline]
    by_cases hcommand : startsCommand before.getLast? (b :: rest) = true
    · rw [if_pos hcommand]
      split
      next rest =>
        exact ⟨[Byte.openBrace], rest, rfl, rfl, rfl, .openBrace hcommand⟩
      next rest =>
        exact ⟨[Byte.closeBrace], rest, rfl, rfl, rfl, .closeBrace hcommand⟩
      next hopen hclose =>
        refine covers_ofMark hcommand ?_
        obtain ⟨-, mark, next, more, heq, ⟨-, hletter⟩ | ⟨hmark, hbrace⟩⟩ :=
          startsCommand_iff.1 hcommand
        · obtain ⟨-, rfl⟩ := List.cons.inj heq
          simp [isCommandByte, hletter]
        · obtain ⟨rfl, rfl⟩ := List.cons.inj heq
          rcases hbrace with rfl | rfl
          · exact absurd rfl (hopen more hmark)
          · exact absurd rfl (hclose more hmark)
    · rw [if_neg hcommand]
      obtain ⟨after, hrest, hunbroken, hunmarked, hstops⟩ :=
        textRun_spec before b rest
      refine ⟨textRun b rest, after, hrest, rfl, rfl,
        .text (by simp) ⟨?_, hunbroken⟩ ⟨⟨?_, hunmarked⟩, hstops⟩⟩
      · rw [← hrest]
        simpa using hline
      · rw [← hrest]
        simpa using hcommand

/-! ## The tokens of a text -/

theorem tokensAfter_append (word rest before : Bytes) :
    tokensAfter word.length before.getLast? (word ++ rest) =
      tokensAfter 0 (before ++ word).getLast? rest := by
  induction word generalizing before with
  | nil => simp
  | cons b word ih =>
      have hnext := ih (before ++ [b])
      rw [List.getLast?_concat, List.append_assoc] at hnext
      rw [List.length_cons, List.cons_append, tokensAfter]
      exact hnext

theorem lexes_tokensAfter (before s : Bytes) :
    Lexes before s (tokensAfter 0 before.getLast? s) := by
  induction hlength : s.length using Nat.strongRecOn generalizing before s with
  | _ n ih =>
      cases s with
      | nil =>
          rw [tokensAfter]
          exact .done before
      | cons b rest =>
          obtain ⟨word, after, rfl, hmore, hraw, hfronts⟩ :=
            covers_front before b rest
          have hskip := tokensAfter_append word after (before ++ [b])
          rw [List.getLast?_concat, List.append_assoc, List.singleton_append,
            ← hraw] at hskip
          have hshorter : after.length < n := by
            rw [← hlength, List.length_cons, List.length_append]
            omega
          rw [tokensAfter]
          dsimp only
          rw [hmore, hskip, ← List.cons_append, ← hraw]
          exact .token hfronts (ih _ hshorter _ _ rfl)

theorem lexes_tokenize (s : Bytes) : Lexes [] s (tokenize s) :=
  lexes_tokensAfter [] s

/-! ## Canonical tokens -/

/-- The tokens of a text as they have to be.  What stands around a token is what
the other tokens are made of. -/
structure IsCanonical (s : Bytes) (tokens : List CommentToken) : Prop where
  /-- The end is marked once, and all other tokens have some text. -/
  ends : ∃ earlier, tokens = earlier ++ [endOfText] ∧
    ∀ t ∈ earlier, t.kind ≠ .endOfText ∧ t.raw ≠ []
  lossless : tokens.flatMap raw = s
  /-- A text breaks no line, no command begins in it, and it goes on as far as
  it can. -/
  text : ∀ earlier t later, tokens = earlier ++ t :: later → t.kind = .text →
    t.value = t.raw ∧ Byte.lineFeed ∉ t.value ∧
      (∀ u ∈ later.head?, u.kind ≠ .text) ∧
      ∀ front back, t.value = front ++ back → back ≠ [] →
        ¬CommandBegins (earlier.flatMap raw ++ front) (back ++ later.flatMap raw)
  /-- A new line takes all of the indentation behind it. -/
  newLine : ∀ earlier t later, tokens = earlier ++ t :: later → t.kind = .newLine →
    (t.raw = Byte.lineFeed :: t.value ∨
      t.raw = Byte.carriageReturn :: Byte.lineFeed :: t.value) ∧
      (t.value ++ later.flatMap raw).takeWhile Byte.isIndent = t.value
  /-- A command takes its whole name and is not glued to a word. -/
  command : ∀ earlier t later, tokens = earlier ++ t :: later →
    (t.kind = .otherCommand ∨ ∃ c, t.kind = .command c) →
    (t.raw = Byte.backslash :: t.value ∨ t.raw = Byte.at_ :: t.value) ∧
      (∃ b ∈ t.value.head?, Byte.isLetter b = true) ∧
      (t.value ++ later.flatMap raw).takeWhile isCommandByte = t.value ∧
      ∀ b ∈ (earlier.flatMap raw).getLast?, isWordByte b = false

namespace Lexes

variable {before s : Bytes} {t : CommentToken}
  {ts earlier later : List CommentToken}

theorem flatMap_raw (h : Lexes before s ts) : ts.flatMap raw = s := by
  induction h with
  | done => rfl
  | token _ _ ih => rw [List.flatMap_cons, ih]

theorem ends (h : Lexes before s ts) :
    ∃ earlier, ts = earlier ++ [endOfText] ∧
    ∀ t ∈ earlier, t.kind ≠ .endOfText ∧ t.raw ≠ [] := by
  induction h with
  | done => exact ⟨[], rfl, by simp⟩
  | @token before rest t ts hfronts _ ih =>
      obtain ⟨earlier, rfl, hearlier⟩ := ih
      refine ⟨t :: earlier, rfl,
        List.forall_mem_cons.2 ⟨⟨?_, raw_ne_nil hfronts⟩, hearlier⟩⟩
      cases hfronts <;> simp [kind]

theorem suffix (h : Lexes before s (earlier ++ ts)) (hts : ts ≠ []) :
    Lexes (before ++ earlier.flatMap raw) (ts.flatMap raw) ts := by
  induction earlier generalizing before s with
  | nil =>
      obtain rfl := h.flatMap_raw
      simpa using h
  | cons t earlier ih =>
      generalize hall : t :: earlier ++ ts = all at h
      cases h with
      | done => simp [hts] at hall
      | token _ hmore =>
          obtain ⟨rfl, rfl⟩ := List.cons.inj hall
          have hrest := ih hmore
          rwa [List.append_assoc] at hrest

theorem fronts (h : Lexes before s (t :: later)) (ht : t.kind ≠ .endOfText) :
    t.Fronts before (later.flatMap raw) ∧ Lexes (before ++ t.raw)
      (later.flatMap raw) later := by
  cases h with
  | done => simp [kind] at ht
  | token hfronts hmore =>
      rw [hmore.flatMap_raw]
      exact ⟨hfronts, hmore⟩

theorem head?_of_stops (h : Lexes before s later) (hstops : Stops before s) :
    ∀ u ∈ later.head?, u.kind ≠ .text := by
  cases h with
  | done => simp [kind]
  | @token _ rest u ts hfronts _ =>
      intro _ hu
      obtain rfl := Option.some.inj hu
      cases hfronts with
      | @text s hne hunbroken hunmarked =>
          obtain ⟨b, s, rfl⟩ := List.exists_cons_of_ne_nil hne
          rcases hstops with hnil | hline | hstarts
          · simp [raw] at hnil
          · exact absurd (hline.symm.trans hunbroken.1) (by simp)
          · exact absurd (hstarts.symm.trans hunmarked.1.1) (by simp)
      | _ => simp [kind]

end Lexes

theorem CommandBegins.of_name {before rest name : Bytes} {mark : UInt8}
    (h : CommandBegins before (mark :: name ++ rest))
    (hname : (name ++ rest).takeWhile isCommandByte = name) (hne : name ≠ []) :
    (mark = Byte.backslash ∨ mark = Byte.at_) ∧
    ∃ b ∈ name.head?, Byte.isLetter b = true := by
  obtain ⟨b, name, rfl⟩ := List.exists_cons_of_ne_nil hne
  have hb : isCommandByte b = true := by
    by_contra hb
    simp [hb] at hname
  obtain ⟨-, _, _, _, heq, ⟨hmark, hletter⟩ | ⟨-, hbrace⟩⟩ := h
  · obtain ⟨rfl, rfl, -⟩ := by simpa using heq
    exact ⟨hmark, b, rfl, hletter⟩
  · obtain ⟨rfl, rfl, -⟩ := by simpa using heq
    rcases hbrace with rfl | rfl <;> exact absurd hb (by decide)

/-- The tokens of every text are canonical. -/
theorem tokenize_isCanonical (s : Bytes) : IsCanonical s (tokenize s) := by
  have hlexes := lexes_tokenize s
  -- each token stands at the front of what is left of the text
  have hfronts {earlier later : List CommentToken} {t : CommentToken}
      (htokens : tokenize s = earlier ++ t :: later)
      (ht : t.kind ≠ .endOfText) :
        t.Fronts (earlier.flatMap raw) (later.flatMap raw) ∧
        Lexes (earlier.flatMap raw ++ t.raw) (later.flatMap raw) later :=
    ((htokens ▸ hlexes).suffix (List.cons_ne_nil t later)).fronts ht
  refine ⟨hlexes.ends, hlexes.flatMap_raw, ?_, ?_, ?_⟩
  · intro earlier t later htokens hkind
    obtain ⟨hfront, hmore⟩ := hfronts htokens (by simp [hkind])
    cases hfront with
    | @text word hne hunbroken hrun =>
        refine ⟨rfl, hunbroken.lineFeed_notMem, ?_, ?_⟩
        · exact hmore.head?_of_stops hrun.2
        · rintro front back hsplit hback hbegins
          obtain rfl : word = front ++ back := hsplit
          have hnot := hrun.1.startsCommand_eq_false hback
          rw [startsCommand_iff.2 hbegins] at hnot
          cases hnot
    | _ => cases hkind
  · intro earlier t later htokens hkind
    cases (hfronts htokens (by simp [hkind])).1 with
    | @newLine lineBreak indent hbreak hindent hrest =>
        refine ⟨?_, ?_⟩
        · rcases hbreak with rfl | rfl
          · exact .inl rfl
          · exact .inr rfl
        · change (indent ++ _).takeWhile _ = indent
          rw [List.takeWhile_append_of_pos hindent]
          cases hlater : later.flatMap raw with
          | nil => simp
          | cons b more =>
              have hb := hrest b (by simp [hlater])
              simp [hb]
    | _ => cases hkind
  · intro earlier t later htokens hkind
    have hends : t.kind ≠ .endOfText := by
      rcases hkind with hother | ⟨c, hcommand⟩
      · simp [hother]
      · simp [hcommand]
    cases (hfronts htokens hends).1 with
    | @command mark c hstarts hname =>
        have hbegins := startsCommand_iff.1 hstarts
        obtain ⟨hmark, hletter⟩ := hbegins.of_name hname (by cases c <;> decide)
        exact ⟨by rcases hmark with rfl | rfl <;> simp [raw, value],
          hletter, hname, hbegins.1⟩
    | @other mark name hstarts hname hother =>
        have hbegins := startsCommand_iff.1 hstarts
        obtain ⟨hmark, hletter⟩ := hbegins.of_name hname hother.2
        exact ⟨by rcases hmark with rfl | rfl <;> simp [raw, value],
          hletter, hname, hbegins.1⟩
    | _ => simp [kind] at hkind

end CommentToken

end LuaGloss

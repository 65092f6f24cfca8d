import LuaGloss.Proofs.Token.Extent
import LuaGloss.Token.Stream
import Mathlib.Data.List.Induction

/-!
# Tokens tile the source

The tokens of a source lie in it one after the other, each at the place that its
position names.  Nothing is lost between them: what is passed over is white
space, a first line that begins with `#!`, or a plain comment.

The argument follows the scanner.  One step finds a token behind some filler and
moves on past it; a whole stream is a chain of such steps, and everything about
positions and gaps is read off the chain.
-/

namespace LuaGloss

namespace Token

theorem isLast_of_kind {t : Token} (h : t.kind = .fault ∨ t.kind = .endOfInput) :
    t.isLast = true := by
  unfold kind at h
  unfold isLast
  cases hcontent : t.content <;> simp_all [Content.kind]

theorem kind_of_isLast {t : Token} (h : t.isLast = true) :
    t.kind = .fault ∨ t.kind = .endOfInput := by
  unfold isLast at h
  unfold kind
  split at h
  next hcontent => simp [hcontent, Content.kind]
  next hcontent => simp [hcontent, Content.kind]
  next => simp at h

end Token

theorem Bytes.slice_middle (before after : Bytes) {word : Bytes} {stop : Nat}
    (hstop : stop ≤ word.length) (start : Nat) :
    Bytes.slice (before ++ (word ++ after)) (before.length + start)
      (before.length + stop) = word.slice start stop := by
  by_cases hempty : stop ≤ start
  · have hleft : before.length + stop - (before.length + start) = 0 := by omega
    have hright : stop - start = 0 := by omega
    unfold Bytes.slice
    rw [hleft, hright, List.take_zero, List.take_zero]
  · have hcount : before.length + stop - (before.length + start) = stop -
        start := by omega
    unfold Bytes.slice
    rw [hcount, ← List.drop_drop, List.drop_left,
      List.drop_append_of_le_length (by omega),
      List.take_append_of_le_length (by rw [List.length_drop]; omega)]

/-! ## Lines and columns -/

namespace Place

theorem after_append (place : Place) (s t : Bytes) :
    place.after (s ++ t) = (place.after s).after t := by
  simp [after]

theorem offset_after (place : Place) (s : Bytes) :
    (place.after s).offset = place.offset + s.length := by
  induction s generalizing place with
  | nil => rfl
  | cons b rest ih =>
      have hstep : (place.step b).offset = place.offset + 1 := by
        unfold step
        split <;> rfl
      change ((place.step b).after rest).offset = _
      rw [ih, hstep, List.length_cons]
      omega

theorem line_after (place : Place) (s : Bytes) :
    (place.after s).line = place.line + s.count Byte.lineFeed := by
  induction s generalizing place with
  | nil => rfl
  | cons b rest ih =>
      change ((place.step b).after rest).line = _
      rw [ih]
      by_cases hb : b = Byte.lineFeed
      · simp only [step, hb, if_true, List.count_cons_self]
        omega
      · simp only [step, if_neg hb, List.count_cons_of_ne hb]

theorem col_after (s : Bytes) :
    (start.after s).col = 1 +
      (s.reverse.takeWhile (· != Byte.lineFeed)).length := by
  induction s using List.reverseRecOn with
  | nil => rfl
  | append_singleton s b ih =>
      have hstep : start.after (s ++ [b]) = (start.after s).step b := by
        rw [after_append]
        rfl
      rw [hstep, List.reverse_append]
      by_cases hb : b = Byte.lineFeed
      · simp [step, hb]
      · simp [step, hb, ih]
        omega

end Place

/-- Whether the byte with the given offset is one of the token's. -/
def Pos.Covers (p : Pos) (i : Nat) : Prop := p.offset ≤ i ∧ i < p.stop

instance (p : Pos) (i : Nat) : Decidable (p.Covers i) :=
  inferInstanceAs (Decidable (_ ∧ _))

/-- The line is counted by the line feeds before the token, the column by the
bytes since the last of them. -/
structure Pos.IsExact (source : Bytes) (p : Pos) : Prop where
  line : p.line = 1 + (source.take p.offset).count Byte.lineFeed
  col : p.col = 1 +
    ((source.take p.offset).reverse.takeWhile (· != Byte.lineFeed)).length

theorem Pos.isExact_of_after {source before after : Bytes}
    (h : source = before ++ after) (length : Nat) :
    ((Place.start.after before).pos length).IsExact source := by
  have hoffset :
      ((Place.start.after before).pos length).offset = before.length := by
    change (Place.start.after before).offset = _
    rw [Place.offset_after]
    exact Nat.zero_add _
  have htake : source.take before.length = before := by rw [h, List.take_left]
  constructor
  · rw [hoffset, htake]
    exact Place.line_after .start before
  · rw [hoffset, htake]
    exact Place.col_after before

/-! ## Filler -/

/-- What may stand between two tokens. -/
inductive Filler : Bytes → Prop
  | nil : Filler []
  | blank {b : UInt8} {rest : Bytes} :
      Byte.isBlank b = true → Filler rest → Filler (b :: rest)
  | comment {text rest : Bytes} :
      IsPlainComment text → Filler rest → Filler (text ++ rest)

theorem Filler.blanks {blanks rest : Bytes}
    (hblanks : ∀ b ∈ blanks, Byte.isBlank b = true) (hrest : Filler rest) :
    Filler (blanks ++ rest) := by
  induction blanks with
  | nil => exact hrest
  | cons b blanks ih =>
      have htail := ih fun c hc => hblanks c (List.mem_cons_of_mem b hc)
      exact .blank (hblanks b List.mem_cons_self) htail

theorem Filler.byte {gap : Bytes} (h : Filler gap) {i : Nat}
    (hi : i < gap.length) :
    (∃ b, gap[i]? = some b ∧ Byte.isBlank b = true) ∨
      ∃ start stop, start ≤ i ∧ i < stop ∧ stop ≤ gap.length ∧
      IsPlainComment (gap.slice start stop) := by
  induction h generalizing i with
  | nil => simp at hi
  | @blank b rest hb _ ih =>
      cases i with
      | zero => exact .inl ⟨b, rfl, hb⟩
      | succ i =>
          rcases ih (Nat.lt_of_succ_lt_succ hi) with
            hblank | ⟨start, stop, hstart, hstop, hle, hcomment⟩
          · exact .inl hblank
          · right
            refine ⟨start + 1,
              stop + 1, by omega, by omega, by simpa using hle, ?_⟩
            simpa [Bytes.slice] using hcomment
  | @comment text rest htext _ ih =>
      by_cases hinside : i < text.length
      · right
        refine ⟨0, text.length, Nat.zero_le i, hinside, by simp, ?_⟩
        simpa [Bytes.slice] using htext
      · have hlength : (text ++ rest).length = text.length + rest.length :=
          List.length_append
        rcases ih (i := i - text.length) (by omega) with
          hblank | ⟨start, stop, hstart, hstop, hle, hcomment⟩
        · left
          rw [List.getElem?_append_right (by omega)]
          exact hblank
        · right
          refine ⟨text.length + start,
            text.length + stop, by omega, by omega, by omega, ?_⟩
          have hsame := Bytes.slice_middle text [] hle start
          rw [List.append_nil] at hsame
          rw [hsame]
          exact hcomment

/-! ## One step of the scanner -/

namespace Scanner

/-- Behind the filler `gap` the scanner finds the token `t`, and `s'` stands
right behind it. -/
structure Finds (s : Scanner) (gap : Bytes) (t : Token) (s' : Scanner) : Prop where
  filler : Filler gap
  text : s.rest = gap ++ (t.lexeme ++ s'.rest)
  pos : t.pos = (s.place.after gap).pos t.lexeme.length
  place : s'.place = s.place.after (gap ++ t.lexeme)
  last : t.content = .endOfInput → t.lexeme = [] ∧ s'.rest = []
  nonempty : t.content ≠ .endOfInput → t.lexeme ≠ []

namespace Finds

variable {s s' : Scanner} {gap : Bytes} {t : Token} (h : s.Finds gap t s')

include h

theorem offset : t.pos.offset = s.place.offset + gap.length := by
  rw [h.pos]
  exact Place.offset_after _ _

theorem length : t.pos.length = t.lexeme.length := by
  rw [h.pos]
  rfl

theorem stop : t.pos.stop = s'.place.offset := by
  unfold Pos.stop
  rw [h.offset, h.length, h.place, Place.offset_after, List.length_append]
  omega

end Finds

theorem Finds.behind {s s' s'' : Scanner} {front gap : Bytes} {t : Token}
    (h : s'.Finds gap t s'') (hfiller : Filler (front ++ gap))
    (hrest : s.rest = front ++ s'.rest)
    (hplace : s'.place = s.place.after front) :
    s.Finds (front ++ gap) t s'' where
  filler := hfiller
  text := by rw [hrest, h.text, List.append_assoc]
  pos := by rw [h.pos, hplace, Place.after_append]
  place := by rw [h.place, hplace, ← Place.after_append, List.append_assoc]
  last := h.last
  nonempty := h.nonempty

theorem rest_advance (s : Scanner) (count : Nat) :
    s.rest = s.rest.take count ++ (s.advance count).rest :=
  (List.take_append_drop count s.rest).symm

def blanks (s : Scanner) : Bytes := s.rest.takeWhile Byte.isBlank

theorem take_blanks (s : Scanner) : s.rest.take s.blanks.length = s.blanks :=
  (List.prefix_iff_eq_take.1 (List.takeWhile_prefix _)).symm

theorem rest_skipBlanks (s : Scanner) :
    s.rest = s.blanks ++ s.skipBlanks.rest := by
  have hrest := s.rest_advance s.blanks.length
  rw [take_blanks] at hrest
  exact hrest

theorem place_skipBlanks (s : Scanner) :
    s.skipBlanks.place = s.place.after s.blanks := by
  change s.place.after (s.rest.take s.blanks.length) = _
  rw [take_blanks]

theorem filler_blanks (s : Scanner) {rest : Bytes} (h : Filler rest) :
    Filler (s.blanks ++ rest) := by
  apply Filler.blanks ?_ h
  intro b hb
  have hall := List.all_takeWhile (l := s.rest) (p := Byte.isBlank)
  exact List.all_eq_true.1 hall b hb

theorem finds_token (s : Scanner) (content : Content) (length : Nat)
    (hcontent : content ≠ .endOfInput) (hpos : 0 < length)
    (hfits : length ≤ s.rest.length) :
    s.Finds [] (s.token content length) (s.advance length) := by
  have hlength : (s.rest.take length).length = length :=
    List.length_take_of_le hfits
  refine ⟨.nil, s.rest_advance length, ?_, rfl, fun h => absurd h hcontent,
    fun _ hnil => ?_⟩
  · change s.place.pos length = s.place.pos (s.rest.take length).length
    rw [hlength]
  · change s.rest.take length = [] at hnil
    rw [hnil] at hlength
    simp at hlength
    omega

/-- The next token stands behind nothing but filler. -/
theorem finds_next (s : Scanner) : ∃ gap, s.Finds gap s.next.1 s.next.2 := by
  fun_induction next s with
  | case1 s hend =>
      have hfound :
          s.skipBlanks.Finds [] (s.skipBlanks.token .endOfInput 0) s.skipBlanks :=
        ⟨.nil, rfl, rfl, rfl, fun _ => ⟨rfl, hend⟩, fun h => absurd rfl h⟩
      exact ⟨_, hfound.behind (s.filler_blanks .nil) s.rest_skipBlanks
        s.place_skipBlanks⟩
  | case2 s b rest hrest front length content hcontent =>
      have hextent := Front.Extends.recognize b rest
      have hfound := s.skipBlanks.finds_token content length
        (fun h => hextent.content (hcontent.trans (congrArg some h)))
        (Nat.succ_pos _)
        (by rw [hrest]; exact hextent.fits)
      exact ⟨_, hfound.behind (s.filler_blanks .nil) s.rest_skipBlanks
        s.place_skipBlanks⟩
  | case3 s b rest hrest front length hcontent ih =>
      obtain ⟨gap, hfound⟩ := ih
      have hplain : IsPlainComment (s.skipBlanks.rest.take length) := by
        rw [hrest]
        exact (Front.Extends.recognize b rest).plain hcontent
      have hcomment : Filler (s.skipBlanks.rest.take length ++ gap) :=
        .comment hplain hfound.filler
      have hskipped :=
        hfound.behind hcomment (s.skipBlanks.rest_advance length) rfl
      exact ⟨_, hskipped.behind (s.filler_blanks hcomment) s.rest_skipBlanks
        s.place_skipBlanks⟩

/-! ## The stream of tokens -/

/-- A token stream goes on up to the end of the input or the first fault, and
stops there. -/
theorem tokensOn_eq (mask : Int) (s : Scanner) :
    ∃ before last, (s.tokensOn mask).1 = before ++ [last] ∧ last.isLast = true ∧
      ∀ t ∈ before, t.isLast = false := by
  fun_induction tokensOn mask s with
  | case1 s h => exact ⟨[], _, rfl, h, by simp⟩
  | case2 s h more ih =>
      obtain ⟨before, last, heq, hlast, hbefore⟩ := ih
      have hfirst : (s.nextOn mask).1.isLast = false := by simpa using h
      refine ⟨(s.nextOn mask).1 :: before, last, by simp [more, heq], hlast, ?_⟩
      intro t ht
      rcases List.mem_cons.1 ht with rfl | ht
      · exact hfirst
      · exact hbefore t ht

/-- A chain of steps from a scanner on. -/
inductive Tiles : Scanner → List Token → Prop
  | last {s s' : Scanner} {gap : Bytes} {t : Token} :
      s.Finds gap t s' → Tiles s [t]
  | cons {s s' : Scanner} {gap : Bytes} {t : Token} {ts : List Token} :
      s.Finds gap t s' → t.content ≠ .endOfInput → Tiles s' ts → Tiles s (t :: ts)

theorem nextOn_allChannels (s : Scanner) : s.nextOn allChannels = s.next := by
  have hpasses : s.next.1.passes allChannels = true := by
    unfold Token.passes Channel.isIn
    cases s.next.1.channel <;> simp [allChannels]
  rw [nextOn, dif_pos hpasses]

theorem tiles_tokensOn (s : Scanner) : s.Tiles (s.tokensOn allChannels).1 := by
  generalize hmask : allChannels = mask
  fun_induction tokensOn mask s with
  | case1 s hlast =>
      obtain ⟨gap, hfound⟩ := s.finds_next
      rw [← hmask, nextOn_allChannels]
      exact .last hfound
  | case2 s hlast more ih =>
      obtain ⟨gap, hfound⟩ := s.finds_next
      have hnext : s.nextOn mask = s.next := by rw [← hmask, nextOn_allChannels]
      have hcontent := Token.content_ne_endOfInput (by simpa [hnext] using hlast)
      have hmore : s.next.2.Tiles more.1 := by
        rw [← hnext]
        exact ih
      rw [hnext]
      exact .cons hfound hcontent hmore

/-- A scanner that has read the text `before` of the source. -/
structure Reads (source : Bytes) (before : Bytes) (s : Scanner) : Prop where
  text : source = before ++ s.rest
  place : s.place = Place.start.after before

namespace Reads

variable {source before : Bytes} {s : Scanner} (h : s.Reads source before)

include h

theorem offset : s.place.offset = before.length := by
  rw [h.place, Place.offset_after]
  exact Nat.zero_add _

theorem length : source.length = s.place.offset + s.rest.length := by
  rw [h.offset, h.text, List.length_append]

variable {gap : Bytes} {t : Token} {s' : Scanner} (hfound : s.Finds gap t s')

include hfound

theorem next : s'.Reads source (before ++ (gap ++ t.lexeme)) where
  text := by
    rw [h.text, hfound.text]
    simp
  place := by rw [hfound.place, h.place, ← Place.after_append]

theorem token_exact : t.pos.IsExact source := by
  have hsource : source = (before ++ gap) ++ (t.lexeme ++ s'.rest) := by
    rw [h.text, hfound.text, List.append_assoc]
  rw [hfound.pos, h.place, ← Place.after_append]
  exact Pos.isExact_of_after hsource _

end Reads

namespace Tiles

variable {source before : Bytes} {s : Scanner} {ts : List Token}

theorem bounds (h : s.Tiles ts) (hs : s.Reads source before) :
    ∀ t ∈ ts, s.place.offset ≤ t.pos.offset ∧ t.pos.offset ≤ t.pos.stop ∧
    t.pos.stop ≤ source.length := by
  have hfirst {s s' : Scanner} {before gap : Bytes} {t : Token}
      (hs : s.Reads source before) (hfound : s.Finds gap t s') :
      s.place.offset ≤ t.pos.offset ∧ t.pos.offset ≤ t.pos.stop ∧
      t.pos.stop ≤ source.length := by
    have hoffset := hfound.offset
    have hstop := hfound.stop
    have hlength := (hs.next hfound).length
    have hself : t.pos.offset ≤ t.pos.stop := Nat.le_add_right _ _
    omega
  induction h generalizing before with
  | last hfound =>
      intro t ht
      rw [List.mem_singleton.1 ht]
      exact hfirst hs hfound
  | @cons s s' gap first ts hfound _ _ ih =>
      intro t ht
      have hbounds := hfirst hs hfound
      rcases List.mem_cons.1 ht with rfl | hlater
      · exact hbounds
      · have hstop := hfound.stop
        have hrest := ih (hs.next hfound) t hlater
        omega

theorem pairwise (h : s.Tiles ts) (hs : s.Reads source before) :
    ts.Pairwise fun t u => t.pos.stop ≤ u.pos.offset := by
  induction h generalizing before with
  | last _ => exact List.pairwise_singleton _ _
  | @cons s s' gap first ts hfound _ hrest ih =>
      refine .cons ?_ (ih (hs.next hfound))
      intro t ht
      rw [hfound.stop]
      exact (hrest.bounds (hs.next hfound) t ht).1

/-- What holds of every token that is found in a source holds of the tokens of a
chain. -/
theorem forall_of_finds {P : Token → Prop} (h : s.Tiles ts)
    (hs : s.Reads source before)
    (hP : ∀ {s s' : Scanner} {before gap : Bytes} {t : Token},
      s.Reads source before → s.Finds gap t s' → P t) :
    ∀ t ∈ ts, P t := by
  induction h generalizing before with
  | last hfound =>
      intro t ht
      rw [List.mem_singleton.1 ht]
      exact hP hs hfound
  | cons hfound _ _ ih =>
      intro t ht
      rcases List.mem_cons.1 ht with rfl | hlater
      · exact hP hs hfound
      · exact ih (hs.next hfound) t hlater

theorem exact (h : s.Tiles ts) (hs : s.Reads source before) :
    ∀ t ∈ ts, t.pos.IsExact source :=
  h.forall_of_finds hs fun hs hfound => hs.token_exact hfound

theorem extent (h : s.Tiles ts) (hs : s.Reads source before) : ∀ t ∈ ts,
    (t.kind = .endOfInput → t.pos.offset = source.length ∧ t.pos.length = 0) ∧
      (t.kind ≠ .endOfInput → 1 ≤ t.pos.length) := by
  have hkind {t : Token} : t.kind = .endOfInput ↔ t.content = .endOfInput := by
    unfold Token.kind
    cases t.content <;> simp [Content.kind]
  refine h.forall_of_finds hs fun {s s' before gap t} hs hfound => ?_
  have hlength := hfound.length
  constructor
  · intro hend
    obtain ⟨hempty, hnothing⟩ := hfound.last (hkind.1 hend)
    have hstop := hfound.stop
    have hall := (hs.next hfound).length
    simp only [hempty, hnothing, Pos.stop, List.length_nil] at hlength hstop hall
    omega
  · intro hother
    have hnonempty := List.length_pos_iff.2 (hfound.nonempty (mt hkind.2 hother))
    omega

end Tiles

end Scanner

/-! ## What lies between the tokens -/

/-- Whether a byte is white space, or lies in a plain comment that begins at
`lower` at the earliest and that no token touches. -/
def IsFiller (source : Bytes) (tokens : List Token) (lower i : Nat) : Prop :=
  (∃ b, source[i]? = some b ∧ Byte.isBlank b = true) ∨
    ∃ start stop, lower ≤ start ∧ start ≤ i ∧ i < stop ∧
      IsPlainComment (source.slice start stop) ∧
      ∀ t ∈ tokens, t.pos.stop ≤ start ∨ stop ≤ t.pos.offset

theorem Filler.isFiller {before gap after : Bytes} (h : Filler gap) {i : Nat}
    (hlow : before.length ≤ i) (hhigh : i < before.length + gap.length)
    {tokens : List Token}
    (htokens : ∀ t ∈ tokens, before.length + gap.length ≤ t.pos.offset) :
    IsFiller (before ++ (gap ++ after)) tokens before.length i := by
  rcases h.byte (i := i - before.length) (by omega) with
    ⟨b, hb, hblank⟩ | ⟨start, stop, hstart, hstop, hle, hcomment⟩
  · left
    refine ⟨b, ?_, hblank⟩
    rw [List.getElem?_append_right hlow, List.getElem?_append_left (by omega)]
    exact hb
  · right
    refine ⟨before.length + start,
      before.length + stop, by omega, by omega, by omega, ?_, ?_⟩
    · rw [Bytes.slice_middle before after hle]
      exact hcomment
    · intro t ht
      have hbehind := htokens t ht
      right
      omega

/-- A byte before the end of the next token that is not one of its bytes lies in
the gap in front of it. -/
theorem Scanner.Finds.isFiller {source before gap : Bytes} {s s' : Scanner}
    {t : Token} {ts : List Token} (h : s.Finds gap t s')
    (hs : s.Reads source before)
    (hbehind : ∀ u ∈ t :: ts, t.pos.offset ≤ u.pos.offset) {i : Nat}
    (hlow : s.place.offset ≤ i) (hhigh : i < t.pos.stop)
    (hfree : ¬t.pos.Covers i) : IsFiller source (t :: ts) s.place.offset i := by
  have hoffset := h.offset
  have hin : i < t.pos.offset := by
    by_contra hge
    exact hfree ⟨Nat.le_of_not_lt hge, hhigh⟩
  have hplace := hs.offset
  rw [hs.text, h.text, hplace]
  apply h.filler.isFiller (by omega) (by omega)
  intro u hu
  have hlater := hbehind u hu
  omega

theorem Scanner.Tiles.isFiller {source before : Bytes} {s : Scanner}
    {ts : List Token} (h : s.Tiles ts) (hs : s.Reads source before) {i : Nat}
    (hlow : s.place.offset ≤ i) (hhigh : ∃ t ∈ ts, i < t.pos.stop)
    (hfree : ∀ t ∈ ts, ¬t.pos.Covers i) :
    IsFiller source ts s.place.offset i := by
  induction h generalizing before with
  | last hfound =>
      obtain ⟨t, ht, hlt⟩ := hhigh
      obtain rfl := List.mem_singleton.1 ht
      exact hfound.isFiller hs (by simp) hlow hlt (hfree t ht)
  | @cons s s' gap first ts hfound hcontent hrest ih =>
      have hstop := hfound.stop
      have hoffset := hfound.offset
      have hself : first.pos.offset ≤ first.pos.stop := Nat.le_add_right _ _
      by_cases hbefore : i < first.pos.stop
      · have hbehind : ∀ u ∈ first :: ts, first.pos.offset ≤ u.pos.offset := by
          intro u hu
          rcases List.mem_cons.1 hu with rfl | hlater
          · exact Nat.le_refl _
          · have hbounds := (hrest.bounds (hs.next hfound) u hlater).1
            omega
        exact hfound.isFiller hs hbehind hlow hbefore
          (hfree first List.mem_cons_self)
      · have hhigh' : ∃ t ∈ ts, i < t.pos.stop := by
          obtain ⟨t, ht, hlt⟩ := hhigh
          rcases List.mem_cons.1 ht with rfl | hlater
          · exact absurd hlt hbefore
          · exact ⟨t, hlater, hlt⟩
        rcases ih (hs.next hfound) (by omega) hhigh' (fun t ht =>
          hfree t (List.mem_cons_of_mem _ ht)) with
          hblank | ⟨start, stop, hlower, hstart, hin, hcomment, htokens⟩
        · exact .inl hblank
        · right
          refine ⟨start, stop, by omega, hstart, hin, hcomment, ?_⟩
          intro t ht
          rcases List.mem_cons.1 ht with rfl | hlater
          · left
            omega
          · exact htokens t hlater

/-- The first line of a source that begins with `#!`; otherwise nothing. -/
def hashBangLine (source : Bytes) : Bytes :=
  if (utf8 "#!").isPrefixOf source then
    source.takeWhile (· != Byte.lineFeed) else []

theorem Scanner.reads_ofSource (source : Bytes) :
    (Scanner.ofSource source).Reads source (hashBangLine source) := by
  unfold Scanner.ofSource hashBangLine
  dsimp only
  split
  · have hprefix : source.takeWhile (· != Byte.lineFeed) <+: source :=
      List.takeWhile_prefix _
    have htake := (List.prefix_iff_eq_take.1 hprefix).symm
    constructor
    · have hrest :=
        Scanner.rest_advance ⟨source, .start⟩
          (source.takeWhile (· != Byte.lineFeed)).length
      rw [htake] at hrest
      exact hrest
    · change Place.start.after (source.take _) = _
      rw [htake]
  · exact ⟨rfl, rfl⟩

/-- The tokens of a source lie on it in order and without overlapping, each at
its exact place. The last one, and no other, is a fault or the end of input,
and whatever no token covers before it is filler or the line that a leading
hash bang takes. -/
theorem tokens_tile_source (source : Bytes) :
    (∃ before last, tokenize source = before ++ [last] ∧
      (last.kind = .fault ∨ last.kind = .endOfInput) ∧
      (∀ t ∈ before, t.kind ≠ .fault ∧ t.kind ≠ .endOfInput) ∧
      ∀ i < last.pos.stop, (∀ t ∈ tokenize source, ¬t.pos.Covers i) →
        i < (hashBangLine source).length ∨
          IsFiller source (tokenize source) (hashBangLine source).length i) ∧
    (tokenize source).Pairwise (fun t u => t.pos.stop ≤ u.pos.offset) ∧
    ∀ t ∈ tokenize source, t.pos.stop ≤ source.length ∧ t.pos.IsExact source ∧
      (t.kind = .endOfInput → t.pos.offset = source.length ∧ t.pos.length = 0) ∧
      (t.kind ≠ .endOfInput → 1 ≤ t.pos.length) := by
  have hreads := Scanner.reads_ofSource source
  have htiles : (Scanner.ofSource source).Tiles (tokenize source) :=
    Scanner.tiles_tokensOn _
  refine ⟨?_, htiles.pairwise hreads, ?_⟩
  · obtain ⟨before, last, heq, hlast, hbefore⟩ :=
      (Scanner.ofSource source).tokensOn_eq allChannels
    have hmem : last ∈ tokenize source := by simp [tokenize, heq]
    refine ⟨before, last, heq, Token.kind_of_isLast hlast, ?_, ?_⟩
    · intro t ht
      have hother := hbefore t ht
      constructor <;> intro hkind <;> simp [Token.isLast_of_kind, hkind] at hother
    · intro i hi hfree
      by_cases hline : i < (hashBangLine source).length
      · exact .inl hline
      · right
        rw [← hreads.offset]
        exact htiles.isFiller hreads (by rw [hreads.offset]; omega) ⟨last,
          hmem, hi⟩ hfree
  · intro t ht
    obtain ⟨hend, hother⟩ := htiles.extent hreads t ht
    exact ⟨(htiles.bounds hreads t ht).2.2, htiles.exact hreads t ht, hend, hother⟩

/-- A first line to be passed over, a comment, a long comment over two lines,
and three tokens, of which the last is a fault. -/
private def gapSample : Bytes := utf8 "#!x\n--c\n--[=[\n]]]=]a=$"

/-- The first byte of the second line of the long comment is in no token, and
the name behind the comment is where its position says. -/
theorem tokens_tile_gapSample :
    (∀ t ∈ tokenize gapSample, ¬t.pos.Covers 14) ∧
      IsFiller gapSample (tokenize gapSample) (hashBangLine gapSample).length 14 ∧
      ⟨.name, ⟨19, 1, 4, 6⟩, utf8 "a"⟩ ∈ tokenize gapSample ∧
      Pos.IsExact gapSample ⟨19, 1, 4, 6⟩ := by
  have hfree : ∀ t ∈ tokenize gapSample, ¬t.pos.Covers 14 := by decide +kernel
  have hname : ⟨.name, ⟨19, 1, 4, 6⟩, utf8 "a"⟩ ∈ tokenize gapSample := by
    decide +kernel
  have hline : ¬14 < (hashBangLine gapSample).length := by decide +kernel
  have hlast : ((tokenize gapSample).getLast?.map (·.pos.stop)) = some 22 := by
    decide +kernel
  obtain ⟨⟨before, last, heq, -, -, hgaps⟩, -, hplaced⟩ :=
    tokens_tile_source gapSample
  have hstop : last.pos.stop = 22 := by simpa [heq] using hlast
  have hgap := hgaps 14 (by omega) hfree
  exact ⟨hfree, hgap.resolve_left hline, hname, (hplaced _ hname).2.1⟩

end LuaGloss

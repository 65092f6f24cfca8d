import LuaGloss.Token.Scan
import Mathlib.Data.List.Basic

/-!
# What stands at the front of a text

The scanner decides what stands at the front of the text that is left and how
long it is.  Whatever it finds lies inside the text, and what it passes over
without a token is a plain comment: two dashes up to the end of a line, or two
dashes and a long bracket up to the first bracket that closes it, in both cases
without an exclamation mark at the beginning.
-/

namespace LuaGloss

namespace Bytes

theorem cut_eq_some {sep s before after : Bytes}
    (h : cut sep s = some (before, after)) :
    s = before ++ (sep ++ after) ∧
      ∀ earlier later, s = earlier ++ (sep ++ later) →
      before.length ≤ earlier.length := by
  induction s generalizing before with
  | nil =>
      unfold cut at h
      split at h
      next hempty =>
        obtain ⟨rfl, rfl⟩ : [] = before ∧ [] = after := by simpa using h
        have hsep : sep = [] := by simpa using hempty
        simp [hsep]
      next => simp at h
  | cons b rest ih =>
      unfold cut at h
      split at h
      next found hfound =>
        obtain ⟨rfl, rfl⟩ : [] = before ∧ found = after := by simpa using h
        have happend : sep ++ found = b :: rest :=
          List.isPrefixOf?_eq_some_iff_append_eq.1 hfound
        exact ⟨happend.symm, by simp⟩
      next hnone =>
        obtain ⟨⟨before', after'⟩, hcut, heq⟩ := Option.map_eq_some_iff.1 h
        obtain ⟨rfl, rfl⟩ : b :: before' = before ∧ after' = after := by
          simpa using heq
        obtain ⟨hrest, hfirst⟩ := ih hcut
        refine ⟨by simp [← hrest], ?_⟩
        intro earlier later hlater
        cases earlier with
        | nil =>
            -- the separator does not stand right at the front
            have hfront : sep ++ later = b :: rest := hlater.symm
            have hfound := List.isPrefixOf?_eq_some_iff_append_eq.2 hfront
            rw [hnone] at hfound
            cases hfound
        | cons first earlier =>
            have htail : rest = earlier ++ (sep ++ later) := by
              rw [List.cons_append, List.cons.injEq] at hlater
              exact hlater.2
            have hle := hfirst earlier later htail
            simpa using hle

end Bytes

namespace LongBracket

variable (level : Nat)

def opener : Bytes :=
  Byte.openBracket :: (List.replicate level Byte.equals ++ [Byte.openBracket])

@[simp] theorem length_opener : (opener level).length = level + 2 := by
  simp [opener]

@[simp] theorem length_closer : (closer level).length = level + 2 := by
  simp [closer]

theorem eq_of_open? {s inner : Bytes} {level : Nat}
    (h : open? s = some (level, inner)) : s = opener level ++ inner := by
  unfold open? at h
  split at h
  next rest =>
    split at h
    next body hdrop =>
      obtain ⟨hlevel, rfl⟩ : (rest.takeWhile (· == Byte.equals)).length =
          level ∧ body = inner := by simpa using h
      have hrun : rest.takeWhile (· == Byte.equals) =
          List.replicate level Byte.equals := by
        rw [← hlevel, List.eq_replicate_iff]
        refine ⟨rfl, ?_⟩
        intro b hb
        have hequals := List.all_takeWhile (l := rest) (p := (· == Byte.equals))
        simpa using List.all_eq_true.1 hequals b hb
      have hsplit :=
        List.takeWhile_append_dropWhile (p := (· == Byte.equals)) (l := rest)
      rw [hrun, hdrop] at hsplit
      simp [opener, ← hsplit]
    next => simp at h
  next => simp at h

theorem open?_of_append (inner : Bytes) :
    open? (opener level ++ inner) = some (level, inner) := by
  have hequals :
      ∀ b ∈ List.replicate level Byte.equals, (b == Byte.equals) = true := by
    intro b hb
    simp [List.eq_of_mem_replicate hb]
  have hdrop :
      (List.replicate level Byte.equals ++ Byte.openBracket :: inner).dropWhile
        (· == Byte.equals) =
      Byte.openBracket :: inner := by
    rw [List.dropWhile_append_of_pos hequals]
    rfl
  have htake :
      (List.replicate level Byte.equals ++ Byte.openBracket :: inner).takeWhile
        (· == Byte.equals) =
      List.replicate level Byte.equals := by
    rw [List.takeWhile_append_of_pos hequals]
    change List.replicate level Byte.equals ++ [] = _
    simp
  have hopener : opener level ++ inner =
      Byte.openBracket ::
        (List.replicate level Byte.equals ++ Byte.openBracket :: inner) := by
    simp [opener]
  rw [hopener]
  unfold open?
  split
  next rest heq =>
    obtain ⟨-, rfl⟩ := List.cons.inj heq
    rw [hdrop, htake, List.length_replicate]
    rfl
  next hne => exact absurd rfl (hne _)

theorem body?_eq_some {s body : Bytes} {level : Nat}
    (h : body? level s = some body) :
    ∃ after, s = body ++ (closer level ++ after) ∧
      ∀ earlier later, s = earlier ++ (closer level ++ later) →
      body.length ≤ earlier.length := by
  obtain ⟨⟨before, after⟩, hcut, rfl⟩ := Option.map_eq_some_iff.1 h
  obtain ⟨heq, hfirst⟩ := Bytes.cut_eq_some hcut
  exact ⟨after, heq, hfirst⟩

end LongBracket

/-! ## Plain comments -/

def IsLineComment (text : Bytes) : Prop :=
  ∃ line, text = Byte.dash :: Byte.dash :: line ∧ Byte.lineFeed ∉ line ∧
    line.head? ≠ some Byte.bang ∧
    ∀ level, ¬LongBracket.opener level <+: line

/-- A comment between long brackets that is not structured.  It ends at the
first bracket that closes it. -/
def IsLongComment (text : Bytes) : Prop :=
  ∃ level body, text = Byte.dash :: Byte.dash ::
    (LongBracket.opener level ++ (body ++ LongBracket.closer level)) ∧
    body.head? ≠ some Byte.bang ∧
    ∀ earlier later, body ++ LongBracket.closer level = earlier ++
      (LongBracket.closer level ++ later) → later = []

def IsPlainComment (text : Bytes) : Prop := IsLineComment text ∨ IsLongComment text

/-! ## The extent of what is recognized -/

namespace Front

/-- What was found lies inside the text.  It is not the end of the input, and
without content it is a plain comment. -/
structure Extends (front : Front) (text : Bytes) : Prop where
  fits : front.more < text.length
  content : front.content ≠ some .endOfInput
  plain : front.content = none → IsPlainComment (text.take (front.more + 1))

theorem Extends.ofContent {content : Content} {length : Nat} {text : Bytes}
    (hcontent : content ≠ .endOfInput) (hlength : length ≤ text.length)
    (htext : text ≠ []) : (ofContent content length).Extends text where
  fits := by
    have hpos := List.length_pos_iff.2 htext
    simp only [Front.ofContent]
    omega
  content := by simpa [Front.ofContent] using hcontent
  plain h := by simp [Front.ofContent] at h

theorem Extends.comment {form : CommentForm} {body : Bytes} {length : Nat}
    {text : Bytes} (hlength : length ≤ text.length) (htext : text ≠ []) :
    (comment form body length).Extends text := by
  unfold Front.comment
  split <;> exact .ofContent (by simp) hlength htext

theorem Extends.lineComment (text : Bytes) :
    (lineComment (text.takeWhile (· != Byte.lineFeed))).Extends
      (Byte.dash :: Byte.dash :: Byte.bang :: text) := by
  have hle : (text.takeWhile (· != Byte.lineFeed)).length ≤ text.length :=
    (List.takeWhile_prefix _).length_le
  apply Extends.comment
  · simp only [List.length_cons]
    omega
  · simp

theorem Extends.restOfLine {rest : Bytes}
    (hopen : LongBracket.open? rest = none)
    (hbang : ∀ text, rest ≠ Byte.bang :: text) :
    Extends ⟨none, 1 + (rest.takeWhile (· != Byte.lineFeed)).length⟩
      (Byte.dash :: Byte.dash :: rest) := by
  have hprefix : rest.takeWhile (· != Byte.lineFeed) <+: rest :=
    List.takeWhile_prefix _
  have htake : rest.take (rest.takeWhile (· != Byte.lineFeed)).length =
      rest.takeWhile (· != Byte.lineFeed) :=
    (List.prefix_iff_eq_take.1 hprefix).symm
  refine ⟨?_, by simp, ?_⟩
  · have hle := hprefix.length_le
    simp only [List.length_cons]
    omega
  · intro _
    left
    refine ⟨rest.takeWhile (· != Byte.lineFeed), ?_, ?_, ?_, ?_⟩
    · have hcount : 1 + (rest.takeWhile (· != Byte.lineFeed)).length + 1 =
          (rest.takeWhile (· != Byte.lineFeed)).length + 1 + 1 := by omega
      rw [hcount, List.take_succ_cons, List.take_succ_cons, htake]
    · intro hmem
      have hall := List.all_takeWhile (l := rest) (p := (· != Byte.lineFeed))
      simpa using List.all_eq_true.1 hall _ hmem
    · intro hhead
      obtain ⟨more, hmore⟩ := hprefix
      obtain ⟨line, hline⟩ : ∃ line, rest.takeWhile (· != Byte.lineFeed) =
          Byte.bang :: line := by
        cases hcase : rest.takeWhile (· != Byte.lineFeed) with
        | nil => simp [hcase] at hhead
        | cons b line =>
            obtain rfl : b = Byte.bang := by simpa [hcase] using hhead
            exact ⟨line, rfl⟩
      exact hbang (line ++ more) (by rw [← hmore, hline, List.cons_append])
    · intro level hopener
      obtain ⟨inner, hinner⟩ := hopener.trans hprefix
      have hsome := LongBracket.open?_of_append level inner
      rw [hinner, hopen] at hsome
      simp at hsome

theorem Extends.longComment {level : Nat} {inner body after : Bytes}
    (hinner : inner = body ++ (LongBracket.closer level ++ after))
    (hbang : ∀ text, body ≠ Byte.bang :: text)
    (hfirst : ∀ earlier later, inner = earlier ++
      (LongBracket.closer level ++ later) → body.length ≤ earlier.length) :
    Extends ⟨none, 2 + LongBracket.size level body - 1⟩
      (Byte.dash :: Byte.dash :: (LongBracket.opener level ++ inner)) := by
  have hlength :
      (LongBracket.opener level ++ (body ++ LongBracket.closer level)).length =
      LongBracket.size level body := by
    simp only [List.length_append, LongBracket.length_opener,
      LongBracket.length_closer, LongBracket.size]
    omega
  have htext : Byte.dash :: Byte.dash :: (LongBracket.opener level ++ inner) =
      (Byte.dash :: Byte.dash ::
        (LongBracket.opener level ++ (body ++ LongBracket.closer level))) ++
          after := by
    simp [hinner]
  have hwhole : 2 + LongBracket.size level body - 1 + 1 =
      (Byte.dash :: Byte.dash ::
        (LongBracket.opener level ++
          (body ++ LongBracket.closer level))).length := by
    simp only [List.length_cons, hlength]
    omega
  refine ⟨?_, by simp, ?_⟩
  · rw [htext, List.length_append]
    change 2 + LongBracket.size level body - 1 < _
    omega
  · intro _
    right
    refine ⟨level, body, ?_, ?_, ?_⟩
    · rw [htext, hwhole, List.take_left]
    · intro hhead
      cases body with
      | nil => simp at hhead
      | cons b body =>
          obtain rfl : b = Byte.bang := by simpa using hhead
          exact hbang body rfl
    · intro earlier later heq
      have hle := hfirst earlier (later ++ after) (by
        rw [hinner, ← List.append_assoc, heq]
        simp)
      have hlengths := congrArg List.length heq
      simp only [List.length_append] at hlengths
      exact List.eq_nil_of_length_eq_zero (by omega)

theorem Extends.ofDashes (rest : Bytes) :
    (ofDashes rest).Extends (Byte.dash :: Byte.dash :: rest) := by
  unfold Front.ofDashes
  split
  next level inner hopen =>
    have hrest := LongBracket.eq_of_open? hopen
    split
    next => exact .ofContent (by simp) (by simp) (by simp)
    next body hbody =>
      obtain ⟨after, hinner, hfirst⟩ := LongBracket.body?_eq_some hbody
      dsimp only
      split
      next text =>
        apply Extends.comment
        · rw [hrest, hinner]
          simp only [LongBracket.size, List.length_cons, List.length_append,
            LongBracket.length_opener, LongBracket.length_closer]
          omega
        · simp
      next hbang =>
        rw [hrest]
        exact .longComment hinner hbang hfirst
  next hopen =>
    split
    next text => exact .lineComment text
    next hbang => exact .restOfLine hopen hbang

/-- The body of a quoted string stands at the front, with its quote behind it if
that was found. -/
def Quotes (quote : UInt8) (text : Bytes) : Bool × Bytes → Prop
  | (true, body) => ∃ after, text = body ++ quote :: after
  | (false, body) => body <+: text

theorem Quotes.append {quote : UInt8} {text body : Bytes} {closed : Bool}
    (h : Quotes quote text (closed, body)) (front : Bytes) :
    Quotes quote (front ++ text) (closed, front ++ body) := by
  cases closed with
  | true =>
      obtain ⟨after, rfl⟩ := h
      exact ⟨after, by simp⟩
  | false => exact (List.prefix_append_right_inj front).2 h

theorem quotes_quotedBody (quote : UInt8) (text : Bytes) :
    Quotes quote text (quotedBody quote text) := by
  fun_induction quotedBody quote text with
  | case1 => exact List.prefix_rfl
  | case2 rest => exact ⟨rest, rfl⟩
  | case3 rest => exact List.nil_prefix
  | case4 => exact List.prefix_rfl
  | case5 c rest closed body heq _ _ ih =>
      rw [heq] at ih
      exact ih.append [Byte.backslash, c]
  | case6 b rest _ _ _ closed body heq ih =>
      rw [heq] at ih
      exact ih.append [b]

theorem Extends.ofQuote (quote : UInt8) (rest : Bytes) :
    (ofQuote quote rest).Extends (quote :: rest) := by
  have hbody := quotes_quotedBody quote rest
  unfold Front.ofQuote
  generalize quotedBody quote rest = read at hbody ⊢
  obtain ⟨closed, body⟩ := read
  cases closed with
  | true =>
      obtain ⟨after, rfl⟩ := hbody
      apply Extends.ofContent (by simp) ?_ (by simp)
      simp only [List.length_append, List.length_cons]
      omega
  | false =>
      have hle : body.length ≤ rest.length := List.IsPrefix.length_le hbody
      apply Extends.ofContent (by simp) ?_ (by simp)
      simpa using hle

theorem Extends.ofLongBracket {level : Nat} {inner text : Bytes}
    (htext : text = LongBracket.opener level ++ inner) :
    (ofLongBracket level inner).Extends text := by
  have hne : text ≠ [] := by simp [htext, LongBracket.opener]
  have hpos := List.length_pos_iff.2 hne
  unfold Front.ofLongBracket
  split
  next => exact .ofContent (by simp) hpos hne
  next body hbody =>
    obtain ⟨after, hinner, -⟩ := LongBracket.body?_eq_some hbody
    apply Extends.ofContent (by simp) ?_ hne
    rw [htext, hinner]
    simp only [LongBracket.size, List.length_append, LongBracket.length_opener,
      LongBracket.length_closer]
    omega

theorem Extends.ofWord {text : Bytes} (htext : text ≠ []) :
    (ofWord text).Extends text := by
  have hle : (text.takeWhile Byte.isNameByte).length ≤ text.length :=
    (List.takeWhile_prefix _).length_le
  unfold Front.ofWord
  dsimp only
  split <;> exact .ofContent (by simp) hle htext

theorem Extends.ofNumeral {text : Bytes} (htext : text ≠ []) :
    (ofNumeral text).Extends text := by
  have hcontent : (Numeral.read text).content ≠ .endOfInput := by
    cases Numeral.read text <;> simp [Numeral.Reading.content]
  exact .ofContent hcontent (Nat.sub_le _ _) htext

theorem Extends.ofSymbol (b : UInt8) {text : Bytes} (htext : text ≠ []) :
    (ofSymbol b text).Extends text := by
  unfold Front.ofSymbol
  split
  next symbol hsymbol =>
    have hprefix := List.find?_some hsymbol
    exact .ofContent (by simp)
      (List.isPrefixOf_iff_prefix.1 hprefix).length_le htext
  next => exact .ofContent (by simp) (List.length_pos_iff.2 htext) htext

theorem Extends.recognize (b : UInt8) (rest : Bytes) :
    (recognize b rest).Extends (b :: rest) := by
  unfold Front.recognize
  split
  next hdashes =>
    obtain ⟨rfl, hhead⟩ : b = Byte.dash ∧ rest.head? = some Byte.dash := by
      simpa using hdashes
    cases rest with
    | nil => simp at hhead
    | cons c rest =>
        obtain rfl : c = Byte.dash := by simpa using hhead
        exact .ofDashes rest
  next =>
    split
    · exact .ofWord (by simp)
    · split
      · exact .ofNumeral (by simp)
      · split
        · exact .ofQuote b rest
        · split
          next level inner hopen =>
            exact .ofLongBracket (LongBracket.eq_of_open? hopen)
          next => exact .ofSymbol b (by simp)

end Front

end LuaGloss

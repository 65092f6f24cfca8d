import LuaGloss.Proofs.Token.Delimiting

/-!
# Long brackets quote any text

Between long brackets of a high enough level every text can stand, whatever its
bytes are.  A closing bracket of the level has a run of equals signs in the
middle, and none of the runs in the text is as long.  A bracket at the end of
the text, with or without equals signs behind it, does not begin a closing
bracket together with the one that was put there: the run of equals signs would
have to go on with a bracket.
-/

namespace LuaGloss

/-! ## Runs of a byte -/

namespace Bytes

def longestRun (b : UInt8) : Bytes → Nat
  | [] => 0
  | c :: rest => max ((c :: rest).takeWhile (· == b)).length (longestRun b rest)

theorem le_longestRun {b : UInt8} {n : Nat} {s : Bytes}
    (h : List.replicate n b <+: s) : n ≤ longestRun b s := by
  obtain ⟨rest, rfl⟩ := h
  cases n with
  | zero => exact Nat.zero_le _
  | succ n =>
      have hrun : ∀ c ∈ List.replicate (n + 1) b, (c == b) = true := by
        intro c hc
        simp [List.eq_of_mem_replicate hc]
      have hlength :
          n + 1 ≤ ((List.replicate (n + 1) b ++ rest).takeWhile
            (· == b)).length := by
        rw [List.takeWhile_append_of_pos hrun, List.length_append,
          List.length_replicate]
        exact Nat.le_add_right _ _
      exact Nat.le_trans hlength (Nat.le_max_left _ _)

theorem longestRun_le_cons (b c : UInt8) (s : Bytes) :
    longestRun b s ≤ longestRun b (c :: s) :=
  Nat.le_max_right _ _

theorem longestRun_cons_of_ne {b c : UInt8} (h : c ≠ b) (s : Bytes) :
    longestRun b (c :: s) = longestRun b s := by
  rw [longestRun, List.takeWhile_cons_of_neg (by simpa using h)]
  exact Nat.max_eq_right (Nat.zero_le _)

theorem prefix_of_prefix_append_cons {word s more : Bytes} {c : UInt8}
    (hc : c ∉ word) (h : word <+: s ++ c :: more) : word <+: s := by
  by_cases hle : word.length ≤ s.length
  · exact List.prefix_of_prefix_length_le h (List.prefix_append s _) hle
  · have hfront : s ++ [c] <+: s ++ c :: more := ⟨more, by simp⟩
    have hlonger : s ++ [c] <+: word :=
      List.prefix_of_prefix_length_le hfront h (by simp; omega)
    exact absurd (hlonger.subset (by simp)) hc

end Bytes

/-! ## The first closing bracket -/

namespace LongBracket

theorem not_closer_prefix {level : Nat} {b : UInt8} {s : Bytes}
    (h : Bytes.longestRun Byte.equals (b :: s) < level) (after : Bytes) :
    ¬closer level <+: b :: (s ++ (closer level ++ after)) := by
  intro hcloser
  have hrun : List.replicate level Byte.equals <+: s ++ Byte.closeBracket ::
      (closer level ++ after).tail :=
    (List.prefix_append _ _).trans (List.cons_prefix_cons.1 hcloser).2
  have hnot : Byte.closeBracket ∉ List.replicate level Byte.equals := fun hmem =>
    absurd (List.eq_of_mem_replicate hmem) (by decide)
  have hle := Bytes.le_longestRun (Bytes.prefix_of_prefix_append_cons hnot hrun)
  have hmore := Bytes.longestRun_le_cons Byte.equals b s
  omega

/-- A text with shorter runs only is closed where it ends. -/
theorem body?_append {level : Nat} {s : Bytes}
    (h : Bytes.longestRun Byte.equals s < level) (after : Bytes) :
    body? level (s ++ (closer level ++ after)) = some s := by
  have hcut : Bytes.cut (closer level) (s ++ (closer level ++ after)) =
      some (s, after) := by
    induction s with
    | nil => exact Bytes.cut_append (by simp [closer]) after
    | cons b s ih =>
        have hrest := ih (Nat.lt_of_le_of_lt (Bytes.longestRun_le_cons _ b s) h)
        have hnone :
            (closer level).isPrefixOf? (b :: (s ++ (closer level ++ after))) =
              none := by
          rw [Option.eq_none_iff_forall_ne_some]
          intro found hfound
          exact not_closer_prefix h after ⟨found,
            List.isPrefixOf?_eq_some_iff_append_eq.1 hfound⟩
        rw [List.cons_append, Bytes.cut, hnone, hrest]
        rfl
  unfold body?
  rw [hcut]
  rfl

end LongBracket

/-! ## Quoting -/

/-- A text as a long string.  The line feed behind the opening bracket is no
part of the text. -/
def longString (level : Nat) (s : Bytes) : Bytes :=
  LongBracket.opener level ++ (Byte.lineFeed :: s ++ LongBracket.closer level)

def longComment (level : Nat) (s : Bytes) : Bytes :=
  Byte.dash :: Byte.dash ::
    (LongBracket.opener level ++ (Byte.bang :: s ++ LongBracket.closer level))

theorem lexeme_longString {level : Nat} {s : Bytes}
    (h : Bytes.longestRun Byte.equals s < level) :
    Lexeme (longString level s) (.string s) := by
  have hruns : Bytes.longestRun Byte.equals (Byte.lineFeed :: s) < level := by
    rwa [Bytes.longestRun_cons_of_ne (by decide)]
  have hbody := LongBracket.body?_append hruns []
  rw [List.append_nil] at hbody
  exact .bracketed hbody

theorem recognize_longComment {level : Nat} {s : Bytes}
    (h : Bytes.longestRun Byte.equals s < level) :
    Front.recognize Byte.dash (longComment level s).tail =
      Front.comment .block s (longComment level s).length := by
  have hruns : Bytes.longestRun Byte.equals (Byte.bang :: s) < level := by
    rwa [Bytes.longestRun_cons_of_ne (by decide)]
  have hbody := LongBracket.body?_append hruns []
  rw [List.append_nil] at hbody
  have hlength : 2 + LongBracket.size level (Byte.bang :: s) =
      (longComment level s).length := by
    simp only [longComment, LongBracket.size, List.length_cons,
      List.length_append, LongBracket.length_opener, LongBracket.length_closer]
    omega
  change Front.ofDashes
    (LongBracket.opener level ++ (Byte.bang :: s ++ LongBracket.closer level)) = _
  unfold Front.ofDashes
  rw [LongBracket.open?_of_append]
  dsimp only
  rw [hbody]
  dsimp only
  rw [hlength]
  rfl

theorem tokenize_longComment {level : Nat} {s body : Bytes} {retroactive : Bool}
    (h : Bytes.longestRun Byte.equals s < level)
    (hcomment : ∀ length, Front.comment .block s length =
      .ofContent (.comment .block retroactive body) length) :
    tokenize (longComment level s) =
      soleTokens (.comment .block retroactive body) (longComment level s) :=
  tokenize_of_recognize rfl (fun hdash => absurd hdash (by decide))
    (by simp [Content.kind]) (by simp [Content.kind])
    ((recognize_longComment h).trans (hcomment _))

/-- A text in which all runs of equals signs are shorter than the level is
quoted by long brackets of the level.  With a line feed in front of it, it is
the value of a string.  Behind two dashes and with an exclamation mark in front
of it, it is the value of a structured comment; if it begins with `<`, the
comment points back and its value is the rest of the text.  In both cases the
source has no other token. -/
theorem longBrackets_quote {level : Nat} {s : Bytes}
    (h : Bytes.longestRun Byte.equals s < level) :
    (∃ t last, tokenize (longString level s) = [t, last] ∧
      last.kind = .endOfInput ∧ t.kind = .string ∧ t.value = s) ∧
      ∃ t last, tokenize (longComment level s) = [t, last] ∧
        last.kind = .endOfInput ∧ t.kind = .comment .block ∧
        (s.head? ≠ some Byte.less → t.value = s ∧ t.isRetroactive = false) ∧
        (s.head? = some Byte.less → t.value = s.tail ∧
          t.isRetroactive = true) := by
  refine ⟨⟨_, _, (lexeme_longString h).tokenize_eq, rfl, rfl, rfl⟩, ?_⟩
  by_cases hless : s.head? = some Byte.less
  · obtain ⟨body, rfl⟩ : ∃ body, s = Byte.less :: body :=
      List.head?_eq_some_iff.1 hless
    have htokens := tokenize_longComment h fun _ => rfl
    exact ⟨_, _, htokens, rfl, rfl, fun hnot => absurd hless hnot,
      fun _ => ⟨rfl, rfl⟩⟩
  · have hcomment (length : Nat) : Front.comment .block s length =
        .ofContent (.comment .block false s) length := by
      rw [Front.comment]
      rintro body rfl
      exact hless rfl
    exact ⟨_, _, tokenize_longComment h hcomment, rfl, rfl, fun _ => ⟨rfl, rfl⟩,
      fun hback => absurd hback hless⟩

/-- A text that ends like the beginning of the closing bracket. -/
theorem longBrackets_quote_overlapping :
    Bytes.longestRun Byte.equals (utf8 "<a]=") < 2 ∧
      (∃ t last, tokenize (utf8 "[==[\n<a]=]==]") = [t, last] ∧
        last.kind = .endOfInput ∧ t.kind = .string ∧
        t.value = utf8 "<a]=") ∧
      ∃ t last, tokenize (utf8 "--[==[!<a]=]==]") = [t, last] ∧
        last.kind = .endOfInput ∧ t.kind = .comment .block ∧
        t.value = utf8 "a]=" ∧ t.isRetroactive = true := by
  have hruns : Bytes.longestRun Byte.equals (utf8 "<a]=") < 2 := by decide +kernel
  obtain ⟨hstring, t, last, htokens, hend, hkind, -, hback⟩ :=
    longBrackets_quote hruns
  exact ⟨hruns, hstring, t, last, htokens, hend, hkind, hback rfl⟩

end LuaGloss

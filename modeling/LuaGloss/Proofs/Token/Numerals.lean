import LuaGloss.Proofs.Token.Delimiting
import Mathlib.Computability.Language
import Mathlib.Order.ConditionallyCompleteLattice.Basic

/-!
# Which texts are numbers

The grammar of numeric literals as a language over bytes, apart from any reader
and without values:

    integer     ::= digit+
    float       ::= (digit+ '.' digit* | '.' digit+ | digit+) [exponent]
    octal       ::= '0' ('o' | 'O') octal+
    hexadecimal ::= '0' ('x' | 'X') mantissa [binary exponent]

where a mantissa has hexadecimal digits, at least one of them, and possibly a
point.  A source is a single number exactly if it belongs to this language.
-/

namespace LuaGloss

open scoped Computability

namespace Numeral

/-! ## The language -/

def anyOf (bytes : String) : Language UInt8 := {s | ∃ b ∈ utf8 bytes, s = [b]}

def digits : Language UInt8 := anyOf "0123456789" * (anyOf "0123456789")∗

def exponentPart (letters : String) : Language UInt8 :=
  anyOf letters * (1 + anyOf "+-") * digits

def floats : Language UInt8 :=
  (digits * anyOf "." * (anyOf "0123456789")∗ + anyOf "." * digits + digits) *
    (1 + exponentPart "eE")

def octals : Language UInt8 :=
  anyOf "0" * anyOf "oO" * (anyOf "01234567" * (anyOf "01234567")∗)

def hexDigits : String := "0123456789abcdefABCDEF"

/-- Hexadecimal digits with an optional point among them, not without a
digit. -/
def mantissas : Language UInt8 :=
  (anyOf hexDigits)∗ * (1 + anyOf ".") *
    (anyOf hexDigits)∗ ⊓ {s | ∃ b ∈ s, b ∈ utf8 hexDigits}

def hexadecimals : Language UInt8 :=
  anyOf "0" * anyOf "xX" * mantissas * (1 + exponentPart "pP")

def literals : Language UInt8 := digits + floats + octals + hexadecimals

/-! ## Digits -/

theorem mem_kstar_anyOf {bytes : String} {s : Bytes} :
    s ∈ (anyOf bytes)∗ ↔ ∀ b ∈ s, b ∈ utf8 bytes := by
  constructor
  · intro h b hb
    obtain ⟨words, rfl, hwords⟩ := Language.mem_kstar.1 h
    obtain ⟨word, hword, hmem⟩ := List.mem_flatten.1 hb
    obtain ⟨c, hc, rfl⟩ := hwords word hword
    rwa [List.mem_singleton.1 hmem]
  · intro h
    refine Language.mem_kstar.2 ⟨s.map ([·]), (List.flatMap_singleton' s).symm, ?_⟩
    intro word hword
    obtain ⟨b, hb, rfl⟩ := List.mem_map.1 hword
    exact ⟨b, h b hb, rfl⟩

theorem mem_anyOf_mul {bytes : String} {l : Language UInt8} {s : Bytes} :
    s ∈ anyOf bytes * l ↔ ∃ b rest, b ∈ utf8 bytes ∧ rest ∈ l ∧ s = b :: rest := by
  constructor
  · intro h
    obtain ⟨_, ⟨b, hb, rfl⟩, rest, hrest, rfl⟩ := Language.mem_mul.1 h
    exact ⟨b, rest, hb, hrest, rfl⟩
  · rintro ⟨b, rest, hb, hrest, rfl⟩
    exact Language.mem_mul.2 ⟨[b], ⟨b, hb, rfl⟩, rest, hrest, rfl⟩

theorem mem_some_anyOf {bytes : String} {s : Bytes} :
    s ∈ anyOf bytes * (anyOf bytes)∗ ↔ s ≠ [] ∧ ∀ b ∈ s, b ∈ utf8 bytes := by
  rw [mem_anyOf_mul]
  constructor
  · rintro ⟨b, rest, hb, hrest, rfl⟩
    exact ⟨by simp, List.forall_mem_cons.2 ⟨hb, mem_kstar_anyOf.1 hrest⟩⟩
  · rintro ⟨hne, hall⟩
    obtain ⟨b, rest, rfl⟩ := List.exists_cons_of_ne_nil hne
    obtain ⟨hb, hrest⟩ := List.forall_mem_cons.1 hall
    exact ⟨b, rest, hb, mem_kstar_anyOf.2 hrest, rfl⟩

theorem mem_optional {l : Language UInt8} {s : Bytes} :
    s ∈ 1 + l ↔ s = [] ∨ s ∈ l := by
  rw [Language.mem_add, Language.mem_one]

theorem mem_classes :
    ∀ b : UInt8, (b ∈ utf8 "0123456789" ↔ Byte.isDigit b = true) ∧
    (b ∈ utf8 "01234567" ↔ Byte.isOctalDigit b = true) ∧
    (b ∈ utf8 hexDigits ↔ Byte.isHexDigit b = true) ∧
    ((b ∈ utf8 "eE" ↔ Byte.toLower b = decimal.letter) ∧
      (b ∈ utf8 "pP" ↔ Byte.toLower b = hexadecimal.letter)) ∧
    ((b ∈ utf8 "xX" ↔ Byte.toLower b = 120) ∧
      (b ∈ utf8 "oO" ↔ Byte.toLower b = 111)) ∧
    (b ∈ utf8 "+-" ↔ b = Byte.plus ∨ b = Byte.dash) ∧
    (b ∈ utf8 "." ↔ b = Byte.dot) ∧ (b ∈ utf8 "0" ↔ b = Byte.zero) :=
  Byte.forall_of_fin (by decide +kernel)

variable (b : UInt8)

theorem mem_digitBytes : b ∈ utf8 "0123456789" ↔ Byte.isDigit b = true :=
  (mem_classes b).1

theorem mem_octalBytes : b ∈ utf8 "01234567" ↔ Byte.isOctalDigit b = true :=
  (mem_classes b).2.1

theorem mem_hexBytes : b ∈ utf8 hexDigits ↔ Byte.isHexDigit b = true :=
  (mem_classes b).2.2.1

theorem mem_letters :
    (b ∈ utf8 "eE" ↔ Byte.toLower b = decimal.letter) ∧
    (b ∈ utf8 "pP" ↔ Byte.toLower b = hexadecimal.letter) :=
  (mem_classes b).2.2.2.1

theorem mem_marks :
    (b ∈ utf8 "xX" ↔ Byte.toLower b = 120) ∧
    (b ∈ utf8 "oO" ↔ Byte.toLower b = 111) :=
  (mem_classes b).2.2.2.2.1

theorem mem_symbols :
    (b ∈ utf8 "+-" ↔ b = Byte.plus ∨ b = Byte.dash) ∧
    (b ∈ utf8 "." ↔ b = Byte.dot) ∧
    (b ∈ utf8 "0" ↔ b = Byte.zero) :=
  (mem_classes b).2.2.2.2.2

/-! ## Mantissas and exponents -/

def IsMantissa (isDigit : UInt8 → Bool) (s : Bytes) : Prop :=
  (s ≠ [] ∧ AllOf isDigit s) ∨
    ∃ whole places, s = whole ++ Byte.dot :: places ∧ whole ++ places ≠ [] ∧
    AllOf isDigit whole ∧ AllOf isDigit places

theorem exists_isLiteral {scale : Scale} {s : Bytes} :
    (∃ value, scale.IsLiteral s value) ↔
      ∃ mantissa tail, IsMantissa scale.isDigit mantissa ∧
        (tail = [] ∨ ∃ power, IsExponent scale.letter tail power) ∧
        mantissa ++ tail = s := by
  constructor
  · rintro ⟨value, h⟩
    cases h with
    | integer hne hall =>
        exact ⟨s, [], .inl ⟨hne, hall⟩, .inl rfl, List.append_nil s⟩
    | scaled hne hall hexponent =>
        exact ⟨_, _, .inl ⟨hne, hall⟩, .inr ⟨_, hexponent⟩, rfl⟩
    | fraction hne hwhole hplaces =>
        exact ⟨_, [], .inr ⟨_, _, rfl, hne, hwhole, hplaces⟩, .inl rfl,
          List.append_nil _⟩
    | scaledFraction hne hwhole hplaces hexponent =>
        exact ⟨_, _, .inr ⟨_, _, rfl, hne, hwhole, hplaces⟩,
          .inr ⟨_, hexponent⟩, List.append_assoc _ _ _⟩
  · rintro ⟨mantissa, tail,
      ⟨hne, hall⟩ | ⟨whole, places, rfl, hne, hwhole, hplaces⟩, hexponent, rfl⟩
    · rcases hexponent with rfl | ⟨power, hexponent⟩
      · exact ⟨_, by simpa using Scale.IsLiteral.integer hne hall⟩
      · exact ⟨_, .scaled hne hall hexponent⟩
    · rcases hexponent with rfl | ⟨power, hexponent⟩
      · exact ⟨_, by simpa using Scale.IsLiteral.fraction hne hwhole hplaces⟩
      · exact ⟨_, by simpa using
          Scale.IsLiteral.scaledFraction hne hwhole hplaces hexponent⟩

theorem mem_digits {s : Bytes} : s ∈ digits ↔ s ≠ [] ∧ AllOf Byte.isDigit s := by
  simp only [digits, mem_some_anyOf, mem_digitBytes, AllOf]

theorem mem_exponentPart {letters : String} {letter : UInt8}
    (hletters : ∀ b, b ∈ utf8 letters ↔ Byte.toLower b = letter) {s : Bytes} :
    s ∈ exponentPart letters ↔ ∃ power, IsExponent letter s power := by
  rw [exponentPart, mul_assoc, mem_anyOf_mul]
  constructor
  · rintro ⟨mark, rest, hmark, hrest, rfl⟩
    rw [hletters] at hmark
    obtain ⟨signs, hsign, rest, hdigits, rfl⟩ := Language.mem_mul.1 hrest
    obtain ⟨hne, hall⟩ := mem_digits.1 hdigits
    rcases mem_optional.1 hsign with rfl | ⟨b, hb, rfl⟩
    · exact ⟨_, .unsigned hmark hne hall⟩
    · rcases (mem_symbols b).1.1 hb with rfl | rfl
      · exact ⟨_, .positive hmark hne hall⟩
      · exact ⟨_, .negative hmark hne hall⟩
  · have hmem {signs rest : Bytes} (hsign : signs ∈ 1 + anyOf "+-")
        (hne : rest ≠ []) (hall : AllOf Byte.isDigit rest) :
        signs ++ rest ∈ (1 + anyOf "+-") * digits :=
          Language.append_mem_mul hsign (mem_digits.2 ⟨hne, hall⟩)
    rintro ⟨power, h⟩
    cases h with
    | unsigned hmark hne hall =>
        exact ⟨_, _, (hletters _).2 hmark,
          hmem (mem_optional.2 (.inl rfl)) hne hall, rfl⟩
    | positive hmark hne hall =>
        have hsign : [Byte.plus] ∈ 1 + anyOf "+-" :=
          mem_optional.2 (.inr ⟨_, (mem_symbols _).1.2 (.inl rfl), rfl⟩)
        exact ⟨_, _, (hletters _).2 hmark, hmem hsign hne hall, rfl⟩
    | negative hmark hne hall =>
        have hsign : [Byte.dash] ∈ 1 + anyOf "+-" :=
          mem_optional.2 (.inr ⟨_, (mem_symbols _).1.2 (.inr rfl), rfl⟩)
        exact ⟨_, _, (hletters _).2 hmark, hmem hsign hne hall, rfl⟩

theorem mem_point {s : Bytes} : s ∈ anyOf "." ↔ s = [Byte.dot] := by
  constructor
  · rintro ⟨b, hb, rfl⟩
    rw [(mem_symbols b).2.1.1 hb]
  · rintro rfl
    exact ⟨Byte.dot, (mem_symbols _).2.1.2 rfl, rfl⟩

theorem mem_decimalMantissas {s : Bytes} :
    s ∈ digits * anyOf "." * (anyOf "0123456789")∗ + anyOf "." * digits +
      digits ↔ IsMantissa Byte.isDigit s := by
  have hmany {s : Bytes} : s ∈ (anyOf "0123456789")∗ ↔ AllOf Byte.isDigit s := by
    simp only [mem_kstar_anyOf, mem_digitBytes, AllOf]
  rw [Language.mem_add, Language.mem_add]
  constructor
  · rintro ((h | h) | h)
    · obtain ⟨_, hfirst, places, hplaces, rfl⟩ := Language.mem_mul.1 h
      obtain ⟨whole, hwhole, _, hpoint, rfl⟩ := Language.mem_mul.1 hfirst
      obtain rfl := mem_point.1 hpoint
      obtain ⟨hne, hall⟩ := mem_digits.1 hwhole
      exact .inr ⟨whole, places, by simp, by simp [hne], hall, hmany.1 hplaces⟩
    · obtain ⟨_, hpoint, places, hplaces, rfl⟩ := Language.mem_mul.1 h
      obtain rfl := mem_point.1 hpoint
      obtain ⟨hne, hall⟩ := mem_digits.1 hplaces
      exact .inr ⟨[], places, rfl, hne, by simp [AllOf], hall⟩
    · exact .inl (mem_digits.1 h)
  · rintro (h | ⟨whole, places, rfl, hne, hwhole, hplaces⟩)
    · exact .inr (mem_digits.2 h)
    · left
      by_cases hempty : whole = []
      · subst hempty
        have hpoint : [Byte.dot] ∈ anyOf "." := mem_point.2 rfl
        have hdigits : places ∈ digits := mem_digits.2 ⟨hne, hplaces⟩
        have hmem := Language.append_mem_mul hpoint hdigits
        exact .inr hmem
      · have hfirst :=
          Language.append_mem_mul (mem_digits.2 ⟨hempty, hwhole⟩) (mem_point.2 rfl)
        left
        simpa using Language.append_mem_mul hfirst (hmany.2 hplaces)

theorem mem_mantissas {s : Bytes} :
    s ∈ mantissas ↔ IsMantissa Byte.isHexDigit s := by
  have hmany {s : Bytes} : s ∈ (anyOf hexDigits)∗ ↔ AllOf Byte.isHexDigit s := by
    simp only [mem_kstar_anyOf, mem_hexBytes, AllOf]
  have hdot : Byte.isHexDigit Byte.dot = false := by decide
  have hsplit : s ∈ mantissas ↔
      s ∈ (anyOf hexDigits)∗ * (1 + anyOf ".") * (anyOf hexDigits)∗ ∧
      ∃ b ∈ s, b ∈ utf8 hexDigits := Iff.rfl
  rw [hsplit]
  constructor
  · rintro ⟨h, b, hb, hdigit⟩
    rw [mem_hexBytes] at hdigit
    obtain ⟨_, hfirst, places, hplaces, rfl⟩ := Language.mem_mul.1 h
    obtain ⟨whole, hwhole, point, hpoint, rfl⟩ := Language.mem_mul.1 hfirst
    rw [hmany] at hwhole hplaces
    rcases mem_optional.1 hpoint with rfl | hpoint
    · refine .inl ⟨List.ne_nil_of_mem hb, ?_⟩
      simpa [AllOf, or_imp, forall_and] using And.intro hwhole hplaces
    · obtain rfl := mem_point.1 hpoint
      refine .inr ⟨whole, places, by simp, ?_, hwhole, hplaces⟩
      intro hnil
      obtain ⟨rfl, rfl⟩ := List.append_eq_nil_iff.1 hnil
      obtain rfl : b = Byte.dot := by simpa using hb
      simp [hdot] at hdigit
  · -- a digit among the bytes, wherever the point is
    have hsome {s : Bytes} (hne : s ≠ []) (hall : AllOf Byte.isHexDigit s) :
        ∃ b ∈ s, b ∈ utf8 hexDigits := by
      obtain ⟨b, hb⟩ := List.exists_mem_of_ne_nil s hne
      exact ⟨b, hb, (mem_hexBytes b).2 (hall b hb)⟩
    rintro (⟨hne, hall⟩ | ⟨whole, places, rfl, hne, hwhole, hplaces⟩)
    · have hnone : ([] : Bytes) ∈ 1 + anyOf "." := mem_optional.2 (.inl rfl)
      have hfirst := Language.append_mem_mul (hmany.2 hall) hnone
      refine ⟨?_, hsome hne hall⟩
      simpa using Language.append_mem_mul hfirst
        (Language.nil_mem_kstar (anyOf hexDigits))
    · have hpoint : [Byte.dot] ∈ 1 + anyOf "." :=
        mem_optional.2 (.inr (mem_point.2 rfl))
      have hfirst := Language.append_mem_mul (hmany.2 hwhole) hpoint
      refine ⟨by simpa using Language.append_mem_mul hfirst (hmany.2 hplaces), ?_⟩
      have hall : AllOf Byte.isHexDigit (whole ++ places) := by
        simpa [AllOf, or_imp, forall_and] using And.intro hwhole hplaces
      obtain ⟨b, hb, hdigit⟩ := hsome hne hall
      exact ⟨b, (List.Sublist.append_left (List.sublist_cons_self _ _) _).subset
        hb, hdigit⟩

/-! ## Literals -/

theorem exists_isLiteral_decimal {s : Bytes} :
    (∃ value, decimal.IsLiteral s value) ↔ s ∈ digits + floats := by
  have hexponent {tail : Bytes} :
      tail ∈ 1 + exponentPart "eE" ↔ tail = [] ∨
      ∃ power, IsExponent decimal.letter tail power := by
    rw [mem_optional, mem_exponentPart fun b => (mem_letters b).1]
  have hfloats : (∃ value, decimal.IsLiteral s value) ↔ s ∈ floats := by
    rw [exists_isLiteral, floats, Language.mem_mul]
    constructor
    · rintro ⟨mantissa, tail, hmantissa, htail, rfl⟩
      exact ⟨mantissa, mem_decimalMantissas.2 hmantissa, tail,
        hexponent.2 htail, rfl⟩
    · rintro ⟨mantissa, hmantissa, tail, htail, rfl⟩
      exact ⟨mantissa, tail, mem_decimalMantissas.1 hmantissa,
        hexponent.1 htail, rfl⟩
  rw [Language.mem_add, ← hfloats, iff_comm, or_iff_right_iff_imp]
  intro h
  obtain ⟨hne, hall⟩ := mem_digits.1 h
  exact ⟨_, .integer hne hall⟩

theorem exists_isLiteral_hexadecimal {s : Bytes} :
    (∃ value, hexadecimal.IsLiteral s value) ↔
      s ∈ mantissas * (1 + exponentPart "pP") := by
  have hexponent {tail : Bytes} :
      tail ∈ 1 + exponentPart "pP" ↔ tail = [] ∨
      ∃ power, IsExponent hexadecimal.letter tail power := by
    rw [mem_optional, mem_exponentPart fun b => (mem_letters b).2]
  rw [exists_isLiteral, Language.mem_mul]
  constructor
  · rintro ⟨mantissa, tail, hmantissa, htail, rfl⟩
    exact ⟨mantissa, mem_mantissas.2 hmantissa, tail, hexponent.2 htail, rfl⟩
  · rintro ⟨mantissa, hmantissa, tail, htail, rfl⟩
    exact ⟨mantissa, tail, mem_mantissas.1 hmantissa, hexponent.1 htail, rfl⟩

theorem mem_marked {letters : String} {l : Language UInt8} {s : Bytes} :
    s ∈ anyOf "0" * anyOf letters * l ↔ ∃ mark ∈ utf8 letters, ∃ rest ∈ l, s =
      Byte.zero :: mark :: rest := by
  rw [mul_assoc, mem_anyOf_mul]
  constructor
  · rintro ⟨b, _, hb, h, rfl⟩
    obtain rfl := (mem_symbols b).2.2.1 hb
    obtain ⟨mark, rest, hmark, hrest, rfl⟩ := mem_anyOf_mul.1 h
    exact ⟨mark, hmark, rest, hrest, rfl⟩
  · rintro ⟨mark, hmark, rest, hrest, rfl⟩
    exact ⟨Byte.zero, _, (mem_symbols _).2.2.2 rfl,
      mem_anyOf_mul.2 ⟨mark, rest, hmark, hrest, rfl⟩, rfl⟩

/-- The texts that have a value as literals are those of the language. -/
theorem mem_literals {s : Bytes} : s ∈ literals ↔ ∃ value, IsLiteral s value := by
  rw [literals, Language.mem_add, Language.mem_add, ← exists_isLiteral_decimal,
    octals, hexadecimals, mul_assoc _ mantissas, mem_marked, mem_marked]
  constructor
  · rintro ((⟨value, h⟩ | ⟨mark, hmark, rest, hrest, rfl⟩) | ⟨mark, hmark, rest,
      hrest, rfl⟩)
    · exact ⟨value, .decimal h⟩
    · obtain ⟨hne, hall⟩ := mem_some_anyOf.1 hrest
      exact ⟨_, .octal ((mem_marks mark).2.1 hmark) hne fun b hb =>
        (mem_octalBytes b).1 (hall b hb)⟩
    · obtain ⟨value, h⟩ := exists_isLiteral_hexadecimal.2 hrest
      exact ⟨value, .hexadecimal ((mem_marks mark).1.1 hmark) h⟩
  · rintro ⟨value, h⟩
    cases h with
    | decimal h => exact .inl (.inl ⟨value, h⟩)
    | @hexadecimal mark rest _ hmark h =>
        exact .inr ⟨mark, (mem_marks mark).1.2 hmark, rest,
          exists_isLiteral_hexadecimal.1 ⟨value, h⟩, rfl⟩
    | @octal mark rest hmark hne hall =>
        have hrest :=
          mem_some_anyOf.2 ⟨hne, fun b hb => (mem_octalBytes b).2 (hall b hb)⟩
        exact .inl (.inr ⟨mark, (mem_marks mark).2.2 hmark, rest, hrest, rfl⟩)

end Numeral

/-! ## Sources -/

theorem Lexeme.exists_isLiteral {text : Bytes} {content : Content}
    (h : Lexeme text content) (hkind : content.kind = .number) :
    ∃ value, Numeral.IsLiteral text value := by
  cases h with
  | word _ _ =>
      unfold wordContent at hkind
      split at hkind <;> cases hkind
  | numeral h => exact ⟨_, h⟩
  | quoted _ _ => cases hkind
  | bracketed _ => cases hkind
  | symbol _ => cases hkind

/-- A source is one number and nothing else exactly if it is a numeric
literal. -/
theorem tokenize_eq_number_iff (s : Bytes) :
    (∃ t last, tokenize s = [t, last] ∧ t.kind = .number ∧ t.pos.offset = 0 ∧
      t.pos.length = s.length ∧
      last.kind = .endOfInput) ↔ s ∈ Numeral.literals := by
  rw [Numeral.mem_literals]
  constructor
  · rintro ⟨t, last, htokens, hkind, hoffset, hlength, -⟩
    have hmem : t ∈ tokenize s := by simp [htokens]
    have hgrammatical : t.isGrammatical = true := by
      simp [Token.isGrammatical, Token.channel, TokenKind.isComment, hkind]
    have hlexeme := Scanner.lexeme_of_mem hmem hgrammatical (by simp [hkind])
    -- the number reaches over the whole source
    have hspan : t.span s = s := by
      simp [Token.span, Pos.stop, Bytes.slice, hoffset, hlength]
    rw [← (Scanner.tiles_tokensOn _).span (Scanner.reads_ofSource s) t hmem,
      hspan] at hlexeme
    exact hlexeme.exists_isLiteral hkind
  · rintro ⟨value, h⟩
    exact ⟨_, _, (Lexeme.numeral h).tokenize_eq, rfl, rfl, rfl, rfl⟩

end LuaGloss

import LuaGloss.Token.Numeral
import Mathlib.Data.List.Basic

/-!
# The grammar of numeric literals

A decimal or hexadecimal literal has digits, possibly a point among them, and
possibly an exponent; an octal literal has digits only.  The reader takes
exactly these texts: what it takes is a literal, and a literal is taken as a
whole, with the same value, wherever no name byte and no point follows it.
-/

namespace LuaGloss

theorem Byte.forall_of_fin {p : UInt8 → Prop}
    (h : ∀ b : Fin 256, p (UInt8.ofNat b)) (b : UInt8) : p b := by
  have hb := h ⟨b.toNat, b.toNat_lt⟩
  simpa using hb

namespace Numeral

/-- Whether a literal can end before the text: it is neither continued nor
spoilt there. -/
def Ends (after : Bytes) : Prop :=
  Byte.isNameByte (peek after) = false ∧ peek after ≠ Byte.dot

def AllOf (isDigit : UInt8 → Bool) (digits : Bytes) : Prop :=
  ∀ b ∈ digits, isDigit b = true

/-- An exponent with the given letter, and its value. -/
inductive IsExponent (letter : UInt8) : Bytes → Int → Prop
  | unsigned {mark : UInt8} {digits : Bytes} :
      Byte.toLower mark = letter → digits ≠ [] → AllOf Byte.isDigit digits →
      IsExponent letter (mark :: digits) (exponentValue digits)
  | positive {mark : UInt8} {digits : Bytes} :
      Byte.toLower mark = letter → digits ≠ [] → AllOf Byte.isDigit digits →
      IsExponent letter (mark :: Byte.plus :: digits) (exponentValue digits)
  | negative {mark : UInt8} {digits : Bytes} :
      Byte.toLower mark = letter → digits ≠ [] → AllOf Byte.isDigit digits →
      IsExponent letter (mark :: Byte.dash :: digits) (-exponentValue digits)

/-- Digits with an optional point among them and an optional exponent, and what
they stand for. -/
inductive Scale.IsLiteral (scale : Scale) : Bytes → Binary64 → Prop
  | integer {digits : Bytes} :
      digits ≠ [] → AllOf scale.isDigit digits →
      IsLiteral scale digits (scale.whole digits)
  | scaled {digits exponent : Bytes} {power : Int} :
      digits ≠ [] → AllOf scale.isDigit digits →
      IsExponent scale.letter exponent power →
      IsLiteral scale (digits ++ exponent) (scale.scaled digits power 0)
  | fraction {whole places : Bytes} :
      whole ++ places ≠ [] → AllOf scale.isDigit whole →
      AllOf scale.isDigit places →
      IsLiteral scale (whole ++ Byte.dot :: places)
        (scale.scaled (whole ++ places) 0 places.length)
  | scaledFraction {whole places exponent : Bytes} {power : Int} :
      whole ++ places ≠ [] → AllOf scale.isDigit whole →
      AllOf scale.isDigit places → IsExponent scale.letter exponent power →
      IsLiteral scale (whole ++ Byte.dot :: (places ++ exponent))
        (scale.scaled (whole ++ places) power places.length)

inductive IsLiteral : Bytes → Binary64 → Prop
  | decimal {text : Bytes} {value : Binary64} :
      decimal.IsLiteral text value → IsLiteral text value
  | hexadecimal {mark : UInt8} {text : Bytes} {value : Binary64} :
      Byte.toLower mark = 120 →
      hexadecimal.IsLiteral text value →
      IsLiteral (Byte.zero :: mark :: text) value
  | octal {mark : UInt8} {digits : Bytes} :
      Byte.toLower mark = 111 → digits ≠ [] → AllOf Byte.isOctalDigit digits →
      IsLiteral (Byte.zero :: mark :: digits)
        (Binary64.ofNat (min (Bytes.toNat 8 digits) integerLimit))

/-! ## Digits -/

variable {isDigit : UInt8 → Bool} {text : Bytes} {value : Binary64}

theorem takeWhile_append {digits after : Bytes} (hdigits : AllOf isDigit digits)
    (hafter : isDigit (peek after) = false) :
    (digits ++ after).takeWhile isDigit = digits := by
  rw [List.takeWhile_append_of_pos hdigits]
  cases after with
  | nil => simp
  | cons b rest =>
      have hb : isDigit b = false := hafter
      simp [hb]

theorem dropWhile_append {digits after : Bytes} (hdigits : AllOf isDigit digits)
    (hafter : isDigit (peek after) = false) :
    (digits ++ after).dropWhile isDigit = after := by
  rw [List.dropWhile_append_of_pos hdigits]
  cases after with
  | nil => simp
  | cons b rest =>
      have hb : isDigit b = false := hafter
      simp [hb]

theorem allOf_takeWhile (isDigit : UInt8 → Bool) (s : Bytes) :
    AllOf isDigit (s.takeWhile isDigit) := by
  intro b hb
  exact List.all_eq_true.1 List.all_takeWhile b hb

theorem takeWhile_ne_nil {s : Bytes} (hzero : isDigit 0 = false)
    (h : isDigit (peek s) = true) : s.takeWhile isDigit ≠ [] := by
  cases s with
  | nil => exact absurd (hzero.symm.trans h) Bool.false_ne_true
  | cons b rest =>
      have hb : isDigit b = true := h
      simp [hb]

theorem peek_append {word : Bytes} (h : word ≠ []) (after : Bytes) :
    peek (word ++ after) = peek word := by
  cases word with
  | nil => exact absurd rfl h
  | cons b word => rfl

theorem peek_mem {word : Bytes} (h : word ≠ []) : peek word ∈ word := by
  cases word with
  | nil => exact absurd rfl h
  | cons b word => exact List.mem_cons_self

theorem Byte.isNameByte_of_isDigit {b : UInt8} (h : Byte.isDigit b = true) :
    Byte.isNameByte b = true := by
  simp [Byte.isNameByte, h]

theorem Ends.not_digit {after : Bytes} (h : Ends after) :
    Byte.isDigit (peek after) = false := by
  by_contra hdigit
  have hname := Byte.isNameByte_of_isDigit (by simpa using hdigit)
  rw [h.1] at hname
  cases hname

/-! ## Exponents -/

def sign : Bytes → Bool × Bytes
  | Byte.plus :: digits => (false, digits)
  | Byte.dash :: digits => (true, digits)
  | digits => (false, digits)

theorem exponent_cons (letter mark : UInt8) (rest : Bytes) :
    exponent letter (mark :: rest) =
    if Byte.toLower mark = letter then
      if Byte.isDigit (peek (sign rest).2) then
        .present (if (sign rest).1 then
          -(exponentValue ((sign rest).2.takeWhile Byte.isDigit) : Int)
          else exponentValue ((sign rest).2.takeWhile Byte.isDigit))
            ((sign rest).2.dropWhile Byte.isDigit)
      else .incomplete (sign rest).2
    else .absent := rfl

theorem sign_of_digit {s : Bytes} (h : Byte.isDigit (peek s) = true) :
    sign s = (false, s) := by
  unfold sign
  split
  · cases h
  · cases h
  · rfl

theorem sign_cases (s : Bytes) :
    (∃ digits, s = Byte.plus :: digits ∧ sign s = (false, digits)) ∨
      (∃ digits, s = Byte.dash :: digits ∧ sign s = (true, digits)) ∨
      sign s = (false, s) := by
  unfold sign
  split
  next digits => exact .inl ⟨digits, rfl, rfl⟩
  next digits => exact .inr (.inl ⟨digits, rfl, rfl⟩)
  next => exact .inr (.inr rfl)

theorem exponent_of_sign {letter mark : UInt8}
    (hmark : Byte.toLower mark = letter) {rest digits after : Bytes}
    {negative : Bool}
    (hsign : sign (rest ++ after) = (negative, digits ++ after))
    (hne : digits ≠ []) (hdigits : AllOf Byte.isDigit digits)
    (hends : Ends after) :
    exponent letter (mark :: rest ++ after) =
      .present (if negative then -(exponentValue digits : Int) else
        exponentValue digits) after := by
  have hpeek : Byte.isDigit (peek (digits ++ after)) = true := by
    rw [peek_append hne]
    exact hdigits _ (peek_mem hne)
  rw [List.cons_append, exponent_cons, if_pos hmark, hsign, if_pos hpeek,
    takeWhile_append hdigits hends.not_digit,
    dropWhile_append hdigits hends.not_digit]

theorem IsExponent.exponent_eq {letter : UInt8} {power : Int}
    (h : IsExponent letter text power) {after : Bytes} (hends : Ends after) :
    exponent letter (text ++ after) = .present power after := by
  cases h with
  | @unsigned mark digits hmark hne hdigits =>
      have hpeek : Byte.isDigit (peek (digits ++ after)) = true := by
        rw [peek_append hne]
        exact hdigits _ (peek_mem hne)
      exact exponent_of_sign hmark (sign_of_digit hpeek) hne hdigits hends
  | positive hmark hne hdigits =>
      exact exponent_of_sign hmark (show sign (Byte.plus :: _ ++ after) =
        (false, _) from rfl) hne hdigits hends
  | negative hmark hne hdigits =>
      exact exponent_of_sign hmark (show sign (Byte.dash :: _ ++ after) =
        (true, _) from rfl) hne hdigits hends

theorem exponent_eq_present {letter : UInt8} {s rest : Bytes} {power : Int}
    (h : exponent letter s = .present power rest) :
    ∃ text, s = text ++ rest ∧ IsExponent letter text power := by
  cases s with
  | nil => cases h
  | cons mark s =>
      rw [exponent_cons] at h
      split at h
      next hmark =>
        split at h
        next hpeek =>
          have hdigits := allOf_takeWhile Byte.isDigit (sign s).2
          have hne := takeWhile_ne_nil rfl hpeek
          have hsplit :=
            List.takeWhile_append_dropWhile (p := Byte.isDigit) (l := (sign s).2)
          injection h with hpower hrest
          rw [hrest] at hsplit
          generalize (sign s).2.takeWhile Byte.isDigit = digits at *
          rcases sign_cases s with ⟨tail, rfl, hsign⟩ | ⟨tail, rfl, hsign⟩ | hsign
          all_goals
            rw [hsign] at hsplit hpower
            dsimp only at hsplit
            subst hsplit hpower
          · exact ⟨mark :: Byte.plus :: digits, rfl, .positive hmark hne hdigits⟩
          · exact ⟨mark :: Byte.dash :: digits, rfl, .negative hmark hne hdigits⟩
          · exact ⟨mark :: digits, rfl, .unsigned hmark hne hdigits⟩
        next => cases h
      next => cases h

/-! ## Literals of one scale -/

/-- The digits and the letter of a scale are name bytes, and the letter is no
digit. -/
structure Scale.IsRegular (scale : Scale) : Prop where
  digit : ∀ b, scale.isDigit b = true → Byte.isNameByte b = true ∧
    Byte.toLower b ≠ scale.letter
  letter : ∀ b, Byte.toLower b = scale.letter → Byte.isNameByte b = true

theorem isRegular_decimal : decimal.IsRegular where
  digit := Byte.forall_of_fin (by decide +kernel)
  letter := Byte.forall_of_fin (by decide +kernel)

theorem isRegular_hexadecimal : hexadecimal.IsRegular where
  digit := Byte.forall_of_fin (by decide +kernel)
  letter := Byte.forall_of_fin (by decide +kernel)

theorem finish_of_ends {first : UInt8} {after : Bytes} (hends : Ends after) :
    finish first (some value) after = .number value after := by
  unfold finish
  simp [hends.1]

theorem finish_eq_number {first : UInt8} {value? : Option Binary64}
    {s rest : Bytes} (h : finish first value? s = .number value rest) :
    value? = some value ∧ s = rest := by
  unfold finish at h
  split at h
  next => cases h
  next =>
    cases value? with
    | none => cases h
    | some found =>
        injection h with hvalue hrest
        exact ⟨congrArg some hvalue, hrest⟩

theorem fraction?_of_ne {s : Bytes} (h : peek s ≠ Byte.dot) :
    fraction? isDigit s = none := by
  unfold fraction?
  split
  · exact absurd rfl h
  · rfl

theorem fraction?_dot (isDigit : UInt8 → Bool) (rest : Bytes) :
    fraction? isDigit (Byte.dot :: rest) =
    if peek rest = Byte.dot then none
      else some (rest.takeWhile isDigit, rest.dropWhile isDigit) := rfl

theorem fraction?_of_append {places after : Bytes}
    (hdot : isDigit Byte.dot = false) (hplaces : AllOf isDigit places)
    (hdigit : isDigit (peek after) = false) (hafter : peek after ≠ Byte.dot) :
    fraction? isDigit (Byte.dot :: (places ++ after)) = some (places, after) := by
  have hpeek : peek (places ++ after) ≠ Byte.dot := by
    by_cases hempty : places = []
    · rwa [hempty]
    · rw [peek_append hempty]
      intro heq
      have hdigit := hplaces _ (peek_mem hempty)
      rw [heq, hdot] at hdigit
      cases hdigit
  rw [fraction?_dot, if_neg hpeek, takeWhile_append hplaces hdigit,
    dropWhile_append hplaces hdigit]

theorem fraction?_eq_some {s places rest : Bytes}
    (h : fraction? isDigit s = some (places, rest)) :
    s = Byte.dot :: (places ++ rest) ∧ AllOf isDigit places := by
  unfold fraction? at h
  split at h
  next tail =>
    split at h
    next => cases h
    next =>
      injection h with h
      injection h with hplaces hrest
      rw [← hplaces, ← hrest, List.takeWhile_append_dropWhile]
      exact ⟨rfl, allOf_takeWhile isDigit tail⟩
  next => cases h

namespace Scale

variable {scale : Scale}

theorem value?_of_ne {whole places : Bytes} (h : whole ++ places ≠ [])
    (power : Int) :
    scale.value? whole places power =
      some (scale.scaled (whole ++ places) power places.length) := by
  unfold value?
  rw [if_neg (by simpa using h)]

theorem value?_eq_some {whole places : Bytes} {power : Int}
    (h : scale.value? whole places power = some value) :
    whole ++ places ≠ [] ∧
    value = scale.scaled (whole ++ places) power places.length := by
  unfold value? at h
  split at h
  next => cases h
  next hne =>
    injection h with h
    exact ⟨by simpa using hne, h.symm⟩

namespace IsRegular

variable (h : scale.IsRegular)

include h

theorem not_dot : scale.isDigit Byte.dot = false := by
  by_contra hdigit
  have hname := (h.digit _ (by simpa using hdigit)).1
  cases hname

theorem not_digit {after : Bytes} (hends : Ends after) :
    scale.isDigit (peek after) = false := by
  by_contra hdigit
  have hname := (h.digit _ (by simpa using hdigit)).1
  rw [hends.1] at hname
  cases hname

theorem peek_exponent {power : Int} (hexp : IsExponent scale.letter text power)
    (after : Bytes) :
    scale.isDigit (peek (text ++ after)) = false ∧
    peek (text ++ after) ≠ Byte.dot := by
  have hmark {mark : UInt8} (hletter : Byte.toLower mark = scale.letter) :
      scale.isDigit mark = false ∧ mark ≠ Byte.dot := by
    constructor
    · by_contra hdigit
      exact (h.digit mark (by simpa using hdigit)).2 hletter
    · intro hdot
      have hname := h.letter mark hletter
      rw [hdot] at hname
      cases hname
  cases hexp with
  | unsigned hletter => exact hmark hletter
  | positive hletter => exact hmark hletter
  | negative hletter => exact hmark hletter

theorem exponent_of_ends {after : Bytes} (hends : Ends after) :
    exponent scale.letter after = .absent := by
  cases after with
  | nil => rfl
  | cons b rest =>
      have hother : Byte.toLower b ≠ scale.letter := by
        intro hletter
        have hname := h.letter b hletter
        have hnot : Byte.isNameByte b = false := hends.1
        rw [hnot] at hname
        cases hname
      rw [exponent_cons, if_neg hother]

theorem read_eq (hliteral : scale.IsLiteral text value) {after : Bytes}
    (hends : Ends after) (first : UInt8) :
    scale.read first (text ++ after) = .number value after := by
  have hdot := h.not_dot
  have hafter := h.not_digit hends
  have habsent := h.exponent_of_ends hends
  unfold read
  cases hliteral with
  | integer hne hdigits =>
      simp only [takeWhile_append hdigits hafter,
        dropWhile_append hdigits hafter, fraction?_of_ne hends.2, habsent,
        finish_of_ends hends, List.isEmpty_eq_false_iff.2 hne,
        Bool.false_eq_true, if_false]
  | @scaled digits exponent power hne hdigits hexp =>
      obtain ⟨hdigit, hpoint⟩ := h.peek_exponent hexp after
      have hvalue : scale.value? digits [] power =
          some (scale.scaled (digits ++ []) power 0) :=
        value?_of_ne (by simpa using hne) power
      simp only [List.append_assoc, takeWhile_append hdigits hdigit,
        dropWhile_append hdigits hdigit, fraction?_of_ne hpoint,
        hexp.exponent_eq hends, List.isEmpty_eq_false_iff.2 hne,
        Bool.false_eq_true, if_false]
      rw [hvalue, finish_of_ends hends]
      simp
  | @fraction whole places hne hwhole hplaces =>
      have hpoint : scale.isDigit (peek (Byte.dot :: (places ++ after))) =
          false := hdot
      simp only [List.append_assoc, List.cons_append,
        takeWhile_append hwhole hpoint, dropWhile_append hwhole hpoint,
        fraction?_of_append hdot hplaces hafter hends.2, habsent,
        value?_of_ne hne, finish_of_ends hends]
  | @scaledFraction whole places exponent power hne hwhole hplaces hexp =>
      obtain ⟨hdigit, hpeek⟩ := h.peek_exponent hexp after
      have hpoint :
          scale.isDigit (peek (Byte.dot :: (places ++ (exponent ++ after)))) =
            false := hdot
      simp only [List.append_assoc, List.cons_append,
        takeWhile_append hwhole hpoint, dropWhile_append hwhole hpoint,
        fraction?_of_append hdot hplaces hdigit hpeek, hexp.exponent_eq hends,
        value?_of_ne hne, finish_of_ends hends]

end IsRegular

theorem isLiteral_of_read {first : UInt8} {s rest : Bytes}
    (h : scale.read first s = .number value rest) :
    ∃ text, s = text ++ rest ∧ scale.IsLiteral text value := by
  have hwhole := allOf_takeWhile scale.isDigit s
  have hsplit := List.takeWhile_append_dropWhile (p := scale.isDigit) (l := s)
  unfold read at h
  dsimp only at h
  generalize s.takeWhile scale.isDigit = whole at *
  generalize s.dropWhile scale.isDigit = tail at *
  subst hsplit
  cases hfraction : fraction? scale.isDigit tail with
  | some pair =>
      obtain ⟨places, tail'⟩ := pair
      obtain ⟨rfl, hplaces⟩ := fraction?_eq_some hfraction
      rw [hfraction] at h
      dsimp only at h
      split at h
      next =>
        obtain ⟨hvalue, rfl⟩ := finish_eq_number h
        obtain ⟨hne, rfl⟩ := value?_eq_some hvalue
        exact ⟨whole ++ Byte.dot :: places, by simp, .fraction hne hwhole hplaces⟩
      next power tail'' hexp =>
        obtain ⟨hvalue, rfl⟩ := finish_eq_number h
        obtain ⟨hne, rfl⟩ := value?_eq_some hvalue
        obtain ⟨exponent, rfl, hexponent⟩ := exponent_eq_present hexp
        exact ⟨whole ++ Byte.dot ::
          (places ++
            exponent), by simp, .scaledFraction hne hwhole hplaces hexponent⟩
      next => cases h
  | none =>
      rw [hfraction] at h
      dsimp only at h
      split at h
      next => cases h
      next hempty =>
        have hne : whole ≠ [] := by simpa using hempty
        split at h
        next =>
          obtain ⟨hvalue, rfl⟩ := finish_eq_number h
          injection hvalue with hvalue
          exact ⟨whole, rfl, hvalue ▸ .integer hne hwhole⟩
        next power tail'' hexp =>
          obtain ⟨hvalue, rfl⟩ := finish_eq_number h
          obtain ⟨-, rfl⟩ := value?_eq_some hvalue
          obtain ⟨exponent, rfl, hexponent⟩ := exponent_eq_present hexp
          refine ⟨whole ++ exponent, by simp, ?_⟩
          simpa using IsLiteral.scaled hne hwhole hexponent
        next => cases h

end Scale

/-! ## All literals -/

def isDecimalByte (b : UInt8) : Bool :=
  Byte.isDigit b || Byte.toLower b == decimal.letter || b == Byte.dot || b ==
    Byte.plus || b == Byte.dash

theorem allOf_exponent {power : Int} (h : IsExponent decimal.letter text power) :
    AllOf isDecimalByte text := by
  have hall {digits : Bytes} (hdigits : AllOf Byte.isDigit digits) :
      AllOf isDecimalByte digits := by
    intro b hb
    simp [isDecimalByte, hdigits b hb]
  cases h with
  | unsigned hmark _ hdigits =>
      have := hall hdigits
      simp_all [AllOf, isDecimalByte]
  | positive hmark _ hdigits =>
      have := hall hdigits
      simp_all [AllOf, isDecimalByte]
  | negative hmark _ hdigits =>
      have := hall hdigits
      simp_all [AllOf, isDecimalByte]

theorem allOf_decimal (h : decimal.IsLiteral text value) :
    AllOf isDecimalByte text := by
  have hall {digits : Bytes} (hdigits : AllOf decimal.isDigit digits) :
      AllOf isDecimalByte digits := by
    intro b hb
    have hdigit : Byte.isDigit b = true := hdigits b hb
    simp [isDecimalByte, hdigit]
  have happend {s t : Bytes} (hs : AllOf isDecimalByte s)
      (ht : AllOf isDecimalByte t) : AllOf isDecimalByte (s ++ t) :=
    List.forall_mem_append.2 ⟨hs, ht⟩
  have hdot {s : Bytes} (hs : AllOf isDecimalByte s) :
      AllOf isDecimalByte (Byte.dot :: s) :=
    List.forall_mem_cons.2 ⟨rfl, hs⟩
  cases h with
  | integer _ hdigits => exact hall hdigits
  | scaled _ hdigits hexp => exact happend (hall hdigits) (allOf_exponent hexp)
  | fraction _ hwhole hplaces => exact happend (hall hwhole) (hdot (hall hplaces))
  | scaledFraction _ hwhole hplaces hexp =>
      exact happend (hall hwhole)
        (hdot (happend (hall hplaces) (allOf_exponent hexp)))

def Begins (text : Bytes) : Prop :=
  ∃ b rest, text = b :: rest ∧
  (Byte.isDigit b = true ∨ b = Byte.dot ∧ Byte.isDigit (peek rest) = true)

theorem begins_digits {digits : Bytes} (hne : digits ≠ [])
    (hdigits : AllOf Byte.isDigit digits) (rest : Bytes) :
    Begins (digits ++ rest) := by
  cases digits with
  | nil => exact absurd rfl hne
  | cons b digits =>
      exact ⟨b, digits ++ rest, rfl, .inl (hdigits b List.mem_cons_self)⟩

theorem begins_fraction {whole places : Bytes} (hne : whole ++ places ≠ [])
    (hwhole : AllOf Byte.isDigit whole) (hplaces : AllOf Byte.isDigit places)
    (rest : Bytes) : Begins (whole ++ Byte.dot :: (places ++ rest)) := by
  by_cases hempty : whole = []
  · subst hempty
    rw [List.nil_append] at hne
    have hpeek : Byte.isDigit (peek (places ++ rest)) = true := by
      rw [peek_append hne]
      exact hplaces _ (peek_mem hne)
    exact ⟨Byte.dot, places ++ rest, rfl, .inr ⟨rfl, hpeek⟩⟩
  · exact begins_digits hempty hwhole _

theorem IsLiteral.begins (h : IsLiteral text value) : Begins text := by
  cases h with
  | decimal h =>
      cases h with
      | integer hne hdigits => simpa using begins_digits hne hdigits []
      | scaled hne hdigits _ => exact begins_digits hne hdigits _
      | fraction hne hwhole hplaces =>
          simpa using begins_fraction hne hwhole hplaces []
      | scaledFraction hne hwhole hplaces _ =>
          exact begins_fraction hne hwhole hplaces _
  | hexadecimal _ _ => exact ⟨_, _, rfl, .inl rfl⟩
  | octal _ _ _ => exact ⟨_, _, rfl, .inl rfl⟩

theorem read_eq_decimal {s : Bytes}
    (h : ∀ mark rest, s = Byte.zero :: mark :: rest → Byte.toLower mark ≠ 120 ∧
      Byte.toLower mark ≠ 111) :
    read s = decimal.read (peek s) s := by
  unfold read
  split
  next mark rest =>
    obtain ⟨hhex, hoctal⟩ := h mark rest rfl
    rw [if_neg hhex, if_neg (by simp [hoctal])]
    rfl
  next => rfl

theorem marks_of_decimalByte :
    ∀ b : UInt8, isDecimalByte b = true → Byte.toLower b ≠ 120 ∧
    Byte.toLower b ≠ 111 :=
  Byte.forall_of_fin (by decide +kernel)

theorem marks_of_not_nameByte :
    ∀ b : UInt8, Byte.isNameByte b = false → Byte.toLower b ≠ 120 ∧
    Byte.toLower b ≠ 111 :=
  Byte.forall_of_fin (by decide +kernel)

theorem readOctal_eq {digits after : Bytes}
    (hdigits : AllOf Byte.isOctalDigit digits) (hends : Ends after) :
    readOctal (digits ++ after) =
      .number (Binary64.ofNat (min (Bytes.toNat 8 digits) integerLimit))
        after := by
  have hdigit : ∀ b : UInt8, Byte.isNameByte b = false →
      Byte.isOctalDigit b = false :=
    Byte.forall_of_fin (by decide +kernel)
  have hafter := hdigit _ hends.1
  unfold readOctal
  rw [takeWhile_append hdigits hafter, dropWhile_append hdigits hafter,
    finish_of_ends hends]

/-- A literal is read as a whole, whatever its kind. -/
theorem IsLiteral.read_eq (h : IsLiteral text value) {after : Bytes}
    (hends : Ends after) : read (text ++ after) = .number value after := by
  cases h with
  | decimal h =>
      rw [read_eq_decimal, isRegular_decimal.read_eq h hends]
      intro mark rest heq
      match text, heq with
      | [], heq =>
          -- the text behind a literal does not begin with a zero
          have hafter : after = Byte.zero :: mark :: rest := heq
          have hname := hends.1
          rw [hafter] at hname
          cases hname
      | [b], heq =>
          have hafter : after = mark :: rest := (List.cons.inj heq).2
          exact marks_of_not_nameByte mark (by simpa [peek, hafter] using hends.1)
      | b :: c :: text, heq =>
          obtain rfl : c = mark := (List.cons.inj (List.cons.inj heq).2).1
          exact marks_of_decimalByte c (allOf_decimal h c (by simp))
  | @hexadecimal mark text _ hmark h =>
      change (if Byte.toLower mark = 120 then
        Numeral.hexadecimal.read Byte.zero (text ++ after) else _) = _
      rw [if_pos hmark, isRegular_hexadecimal.read_eq h hends]
  | @octal mark digits hmark hne hdigits =>
      have hhex : ¬Byte.toLower mark = 120 := by
        rw [hmark]
        decide
      have hpeek : Byte.isOctalDigit (peek (digits ++ after)) = true := by
        rw [peek_append hne]
        exact hdigits _ (peek_mem hne)
      change (if Byte.toLower mark = 120 then _ else
        if (decide (Byte.toLower mark = 111) &&
          Byte.isOctalDigit (peek (digits ++ after))) = true then
          readOctal (digits ++ after) else _) = _
      rw [if_neg hhex, if_pos (by simp [hmark, hpeek]), readOctal_eq hdigits hends]

/-- What is read is a literal, whatever its kind. -/
theorem isLiteral_of_read {s rest : Bytes} (h : read s = .number value rest) :
    ∃ text, s = text ++ rest ∧ IsLiteral text value := by
  unfold read at h
  split at h
  next mark tail =>
    split at h
    next hmark =>
      obtain ⟨text, rfl, htext⟩ := Scale.isLiteral_of_read h
      exact ⟨Byte.zero :: mark :: text, rfl, .hexadecimal hmark htext⟩
    next =>
      split at h
      next hoctal =>
        obtain ⟨hmark, hpeek⟩ : Byte.toLower mark = 111 ∧
            Byte.isOctalDigit (peek tail) = true := by simpa using hoctal
        have hsplit :=
          List.takeWhile_append_dropWhile (p := Byte.isOctalDigit) (l := tail)
        unfold readOctal at h
        obtain ⟨hvalue, hrest⟩ := finish_eq_number h
        injection hvalue with hvalue
        rw [hrest] at hsplit
        refine ⟨Byte.zero :: mark ::
          tail.takeWhile Byte.isOctalDigit, by simp [hsplit], ?_⟩
        exact hvalue ▸ .octal hmark (takeWhile_ne_nil rfl hpeek)
          (allOf_takeWhile _ tail)
      next =>
        obtain ⟨text, heq, htext⟩ := Scale.isLiteral_of_read h
        exact ⟨text, heq, .decimal htext⟩
  next =>
    obtain ⟨text, heq, htext⟩ := Scale.isLiteral_of_read h
    exact ⟨text, heq, .decimal htext⟩

end Numeral

end LuaGloss

import LuaGloss.Proofs.Token.Extent
import LuaGloss.Proofs.Token.Literal

/-!
# Lexemes

The texts that stand for one token of the grammar.  Where such a text ends is
decided by what follows it, but white space or the end of the source always ends
it, and what follows never changes what the text itself stands for.  So the
scanner finds nothing but lexemes, and it finds every lexeme that stands apart
from what follows.
-/

namespace LuaGloss

/-! ## Brackets and quotes -/

namespace Bytes

theorem cut_append {sep : Bytes} (hsep : sep ≠ []) (after : Bytes) :
    cut sep (sep ++ after) = some ([], after) := by
  cases sep with
  | nil => exact absurd rfl hsep
  | cons c sep =>
      have hfound : (c :: sep).isPrefixOf? (c :: (sep ++ after)) = some after :=
        List.isPrefixOf?_eq_some_iff_append_eq.2 rfl
      rw [List.cons_append, cut, hfound]

theorem cut_stable {sep s before after : Bytes} (hsep : sep ≠ [])
    (h : cut sep s = some (before, after)) (after' : Bytes) :
    cut sep (before ++ (sep ++ after')) = some (before, after') := by
  induction s generalizing before with
  | nil =>
      unfold cut at h
      simp [hsep] at h
  | cons b rest ih =>
      have hrest := (cut_eq_some h).1
      unfold cut at h
      split at h
      next found hfound =>
        obtain ⟨rfl, -⟩ : [] = before ∧ found = after := by simpa using h
        exact cut_append hsep after'
      next hnone =>
        obtain ⟨⟨before', found⟩, hcut, heq⟩ := Option.map_eq_some_iff.1 h
        obtain ⟨rfl, rfl⟩ : b :: before' = before ∧
            found = after := by simpa using heq
        have hnot :
            sep.isPrefixOf? (b :: (before' ++ (sep ++ after'))) = none := by
          rw [Option.eq_none_iff_forall_ne_some] at hnone ⊢
          intro tail htail
          -- the separator would lie in the part that both texts have in common
          have hfront : sep <+: (b :: before' ++ sep) ++ after' :=
            ⟨tail, by simpa using List.isPrefixOf?_eq_some_iff_append_eq.1 htail⟩
          have hcommon : sep <+: b :: before' ++ sep := by
            apply List.prefix_of_prefix_length_le hfront (List.prefix_append _ _)
            rw [List.length_append]
            omega
          obtain ⟨tail', htail'⟩ := hcommon.trans (List.prefix_append _ found)
          apply hnone tail'
          rw [List.isPrefixOf?_eq_some_iff_append_eq, htail', hrest]
          simp
        rw [List.cons_append, cut, hnot, ih hcut]
        rfl

def Passes (sep s : Bytes) : Prop :=
  ∀ t, cut sep (s ++ t) = (cut sep t).map fun (before, after) =>
    (s ++ before, after)

namespace Passes

variable {c : UInt8} {sep s t : Bytes}

theorem nil (sep : Bytes) : Passes sep [] := fun t => by simp

theorem append (hs : Passes sep s) (ht : Passes sep t) : Passes sep (s ++ t) := by
  intro u
  rw [List.append_assoc, hs, ht, Option.map_map]
  simp [Function.comp_def]

theorem cons {b : UInt8} (h : ∀ t, sep.isPrefixOf? (b :: (s ++ t)) = none)
    (hs : Passes sep s) : Passes sep (b :: s) := by
  intro t
  rw [List.cons_append, cut, h, hs, Option.map_map]
  simp [Function.comp_def]

theorem of_not_mem (h : c ∉ s) : Passes (c :: sep) s := by
  induction s with
  | nil => exact nil _
  | cons b s ih =>
      rw [List.mem_cons, not_or] at h
      exact cons (fun t => by simp [List.isPrefixOf?, h.1]) (ih h.2)

theorem of_not_prefix (h : ¬ sep <+: s ∧ ¬ s <+: sep) (hc : c ∉ s) :
    Passes (c :: sep) (c :: s) := by
  refine cons (fun t => ?_) (of_not_mem hc)
  rw [Option.eq_none_iff_forall_ne_some]
  intro rest hrest
  have hprefix : sep <+: s ++ t :=
    ⟨rest, by simpa using List.isPrefixOf?_eq_some_iff_append_eq.1 hrest⟩
  exact (List.prefix_or_prefix_of_prefix hprefix (List.prefix_append s t)).elim
    h.1 h.2

theorem cut_eq (h : Passes sep s) (hsep : sep ≠ []) (after : Bytes) :
    cut sep (s ++ (sep ++ after)) = some (s, after) := by
  rw [h, cut_append hsep]
  simp

theorem cut_eq_none (h : Passes sep s) (hsep : sep ≠ []) : cut sep s = none := by
  have hnil := h []
  rw [List.append_nil] at hnil
  simp [hnil, cut, hsep]

end Passes

end Bytes

namespace LongBracket

theorem body?_stable {level : Nat} {s body : Bytes}
    (h : body? level s = some body) (after : Bytes) :
    body? level (body ++ (closer level ++ after)) = some body := by
  obtain ⟨⟨before, rest⟩, hcut, rfl⟩ := Option.map_eq_some_iff.1 h
  unfold body?
  rw [Bytes.cut_stable (by simp [closer]) hcut]
  rfl

end LongBracket

namespace Front

theorem quotedBody_quote (quote : UInt8) (rest : Bytes) :
    quotedBody quote (quote :: rest) = (true, []) := by
  unfold quotedBody
  rw [if_pos rfl]

theorem quotedBody_escape {quote : UInt8} (hquote : Byte.backslash ≠ quote)
    (c : UInt8) (rest : Bytes) :
    quotedBody quote (Byte.backslash :: c :: rest) =
      ((quotedBody quote rest).1,
        Byte.backslash :: c :: (quotedBody quote rest).2) := by
  rw [quotedBody, if_neg hquote, if_neg (by decide), if_pos rfl]

theorem quotedBody_plain {quote b : UInt8} (hquote : b ≠ quote)
    (hline : b ≠ Byte.lineFeed) (hescape : b ≠ Byte.backslash) (rest : Bytes) :
    quotedBody quote (b :: rest) =
      ((quotedBody quote rest).1, b :: (quotedBody quote rest).2) := by
  conv_lhs => unfold quotedBody
  rw [if_neg hquote, if_neg hline, if_neg hescape]

theorem quotedBody_stable {quote : UInt8} {s body : Bytes}
    (h : quotedBody quote s = (true, body)) (after : Bytes) :
    quotedBody quote (body ++ quote :: after) = (true, body) := by
  fun_induction quotedBody quote s generalizing body with
  | case1 => cases h
  | case2 rest =>
      obtain rfl : [] = body := by simpa using h
      exact quotedBody_quote quote after
  | case3 rest => cases h
  | case4 => cases h
  | case5 c rest closed inner heq hquote _ ih =>
      obtain ⟨rfl, rfl⟩ : closed = true ∧
          Byte.backslash :: c :: inner = body := by simpa using h
      change quotedBody quote
        (Byte.backslash :: c :: (inner ++ quote :: after)) = _
      rw [quotedBody_escape hquote, ih heq]
  | case6 b rest hquote hline hescape closed inner heq ih =>
      obtain ⟨rfl, rfl⟩ : closed = true ∧ b :: inner = body := by simpa using h
      rw [List.cons_append, quotedBody_plain hquote hline hescape, ih heq]

end Front

/-! ## Lexemes -/

def wordContent (word : Bytes) : Content :=
  match Keyword.ofText? word with
  | some keyword => .keyword keyword
  | none => .name

/-- The texts of the tokens that the grammar sees, and what they say. -/
inductive Lexeme : Bytes → Content → Prop
  | word {b : UInt8} {rest : Bytes} :
      Byte.isNameStart b = true → Numeral.AllOf Byte.isNameByte rest →
      Lexeme (b :: rest) (wordContent (b :: rest))
  | numeral {text : Bytes} {value : Binary64} :
      Numeral.IsLiteral text value → Lexeme text (.number value)
  | quoted {quote : UInt8} {body : Bytes} :
      quote = Byte.quote ∨ quote = Byte.apostrophe →
      Front.quotedBody quote (body ++ [quote]) = (true, body) →
      Lexeme (quote :: (body ++ [quote])) (.string body)
  | bracketed {level : Nat} {body : Bytes} :
      LongBracket.body? level (body ++ LongBracket.closer level) = some body →
      Lexeme (LongBracket.opener level ++ (body ++ LongBracket.closer level))
        (.string (Front.longStringValue body))
  | symbol (sign : Symbol) : Lexeme sign.text (.symbol sign)

namespace Lexeme

variable {text : Bytes} {content : Content}

theorem kind (h : Lexeme text content) :
    content.kind ≠ .endOfInput ∧ content.kind ≠ .fault ∧
    content.kind.isComment = false := by
  cases h with
  | word _ _ =>
      unfold wordContent
      split <;> simp [Content.kind, TokenKind.isComment]
  | numeral _ => simp [Content.kind, TokenKind.isComment]
  | quoted _ _ => simp [Content.kind, TokenKind.isComment]
  | bracketed _ => simp [Content.kind, TokenKind.isComment]
  | symbol _ => simp [Content.kind, TokenKind.isComment]

theorem first (h : Lexeme text content) :
    ∃ b rest, text = b :: rest ∧ Byte.isBlank b = false ∧
    (b = Byte.hash → rest = []) := by
  have hbytes : ∀ b : UInt8, Byte.isNameStart b = true ∨ Byte.isDigit b = true →
      Byte.isBlank b = false ∧ b ≠ Byte.hash :=
        Byte.forall_of_fin (by decide +kernel)
  have hfirst {b : UInt8} (rest : Bytes) (hb : Byte.isBlank b = false ∧
      b ≠ Byte.hash) :
      ∃ c tail, b :: rest = c :: tail ∧ Byte.isBlank c = false ∧
      (c = Byte.hash → tail = []) :=
    ⟨b, rest, rfl, hb.1, fun heq => absurd heq hb.2⟩
  cases h with
  | @word b rest hb _ => exact hfirst rest (hbytes b (.inl hb))
  | numeral hliteral =>
      obtain ⟨b, rest, rfl, hdigit | ⟨rfl, -⟩⟩ := hliteral.begins
      · exact hfirst rest (hbytes b (.inr hdigit))
      · exact hfirst rest (by decide)
  | quoted hquote _ => rcases hquote with rfl | rfl <;> exact hfirst _ (by decide)
  | bracketed _ => exact hfirst _ (by decide)
  | symbol sign => cases sign <;> exact ⟨_, _, rfl, by decide, by decide⟩

end Lexeme

/-- Whether a lexeme ends before the text: white space follows, or nothing. -/
def Apart (after : Bytes) : Prop := ∀ b ∈ after.head?, Byte.isBlank b = true

namespace Apart

variable {after : Bytes} (h : Apart after)

include h

theorem peek {p : UInt8 → Bool} (hzero : p 0 = false)
    (hblank : ∀ b, Byte.isBlank b = true → p b = false) :
    p (Numeral.peek after) = false := by
  cases after with
  | nil => exact hzero
  | cons b rest => exact hblank b (h b rfl)

theorem ends : Numeral.Ends after := by
  constructor
  · exact h.peek rfl (Byte.forall_of_fin (by decide +kernel))
  · have hdot :=
      h.peek (p := (· == Byte.dot)) rfl (Byte.forall_of_fin (by decide +kernel))
    simpa using hdot

theorem head?_ne {b : UInt8} (hb : Byte.isBlank b = false) :
    after.head? ≠ some b := by
  intro heq
  have hblank := h b heq
  rw [hb] at hblank
  cases hblank

theorem within {word sign : Bytes} (hsign : ∀ b ∈ sign, Byte.isBlank b = false)
    (hfront : sign <+: word ++ after) : sign <+: word := by
  induction word generalizing sign with
  | nil =>
      cases sign with
      | nil => exact List.nil_prefix
      | cons b sign =>
          obtain ⟨rest, hrest⟩ := hfront
          have hhead : after.head? = some b := congrArg List.head? hrest.symm
          exact absurd hhead (h.head?_ne (hsign b List.mem_cons_self))
  | cons c word ih =>
      cases sign with
      | nil => exact List.nil_prefix
      | cons b sign =>
          obtain ⟨rfl, hrest⟩ := List.cons_prefix_cons.1 hfront
          exact List.cons_prefix_cons.2 ⟨rfl,
            ih (fun d hd => hsign d (List.mem_cons_of_mem _ hd)) hrest⟩

end Apart

namespace Symbol

theorem not_blank (sign : Symbol) : ∀ b ∈ sign.text, Byte.isBlank b = false := by
  cases sign <;> decide +kernel

theorem atFront?_text (sign : Symbol) : atFront? sign.text = some sign := by
  cases sign <;> decide +kernel

/-- What distinguishes a symbol from everything else that the first byte can
begin. -/
structure Shape (b : UInt8) (rest : Bytes) : Prop where
  name : Byte.isNameStart b = false
  digit : Byte.isDigit b = false
  quote : b ≠ Byte.quote ∧ b ≠ Byte.apostrophe
  dash : b = Byte.dash → rest = []
  dot : b = Byte.dot → Byte.isDigit (Numeral.peek rest) = false
  bracket : b = Byte.openBracket → rest = []

theorem shape {sign : Symbol} {b : UInt8} {rest : Bytes}
    (h : sign.text = b :: rest) : Shape b rest := by
  have hall : ∀ sign : Symbol, Byte.isNameStart (sign.text.headD 0) = false ∧
      Byte.isDigit (sign.text.headD 0) = false ∧
      (sign.text.headD 0 ≠ Byte.quote ∧ sign.text.headD 0 ≠ Byte.apostrophe) ∧
      (sign.text.headD 0 = Byte.dash → sign.text.tail = []) ∧
      (sign.text.headD 0 = Byte.dot →
        Byte.isDigit (Numeral.peek sign.text.tail) = false) ∧
      (sign.text.headD 0 = Byte.openBracket → sign.text.tail = []) := by
    intro sign
    cases sign <;> decide +kernel
  have hsign := hall sign
  rw [h] at hsign
  obtain ⟨hname, hdigit, hquote, hdash, hdot, hbracket⟩ := hsign
  exact ⟨hname, hdigit, hquote, hdash, hdot, hbracket⟩

theorem atFront?_append (sign : Symbol) {after : Bytes} (h : Apart after) :
    atFront? (sign.text ++ after) = some sign := by
  have hsame (other : Symbol) : other.text.isPrefixOf (sign.text ++ after) =
      other.text.isPrefixOf sign.text := by
    rw [Bool.eq_iff_iff, List.isPrefixOf_iff_prefix, List.isPrefixOf_iff_prefix]
    exact ⟨h.within other.not_blank, fun hfront =>
      hfront.trans (List.prefix_append _ _)⟩
  rw [← sign.atFront?_text]
  unfold atFront?
  simp only [hsame]

end Symbol

namespace Front

/-! ## What is recognized at the front -/

theorem ofWord_eq (s : Bytes) :
    ofWord s = .ofContent (wordContent (s.takeWhile Byte.isNameByte))
      (s.takeWhile Byte.isNameByte).length := by
  unfold ofWord wordContent
  dsimp only
  cases Keyword.ofText? (s.takeWhile Byte.isNameByte) <;> rfl

theorem recognize_word {b : UInt8} (hb : Byte.isNameStart b = true)
    (rest : Bytes) : recognize b rest = ofWord (b :: rest) := by
  have hdash : b ≠ Byte.dash := by
    rintro rfl
    cases hb
  unfold recognize
  simp [hdash, hb]

theorem recognize_numeral {b : UInt8} {rest : Bytes}
    (h : Byte.isDigit b = true ∨ b = Byte.dot ∧
      Byte.isDigit (Numeral.peek rest) = true) :
    recognize b rest = ofNumeral (b :: rest) := by
  have hbytes : ∀ b : UInt8, Byte.isDigit b = true ∨ b = Byte.dot →
      b ≠ Byte.dash ∧ Byte.isNameStart b = false :=
    Byte.forall_of_fin (by decide +kernel)
  obtain ⟨hdash, hname⟩ := hbytes b (h.imp_right And.left)
  have hbegins :
      (Byte.isDigit b ||
        (decide (b = Byte.dot) && Byte.isDigit (rest.headD 0))) = true := by
    simpa [Numeral.peek] using h
  unfold recognize
  rw [if_neg (by simp [hdash]), if_neg (by simp [hname]), if_pos hbegins]

theorem recognize_quote {quote : UInt8}
    (h : quote = Byte.quote ∨ quote = Byte.apostrophe) (rest : Bytes) :
    recognize quote rest = ofQuote quote rest := by
  rcases h with rfl | rfl <;> rfl

theorem recognize_bracket {level : Nat} {b : UInt8} {rest inner : Bytes}
    (h : b :: rest = LongBracket.opener level ++ inner) :
    recognize b rest = ofLongBracket level inner := by
  have hopen := LongBracket.open?_of_append level inner
  obtain rfl : b = Byte.openBracket := (List.cons.inj h).1
  unfold recognize
  rw [h, hopen]
  rfl

theorem open?_of_apart {after : Bytes} (h : Apart after) :
    LongBracket.open? (Byte.openBracket :: after) = none := by
  cases hopen : LongBracket.open? (Byte.openBracket :: after) with
  | none => rfl
  | some pair =>
      obtain ⟨level, inner⟩ := pair
      have htext := (List.cons.inj (LongBracket.eq_of_open? hopen)).2
      have hhead := congrArg List.head? htext
      cases level with
      | zero => exact absurd hhead (h.head?_ne rfl)
      | succ level => exact absurd hhead (h.head?_ne rfl)

theorem recognize_symbol {sign : Symbol} {b : UInt8} {rest : Bytes}
    (htext : sign.text = b :: rest) {after : Bytes} (hafter : Apart after) :
    recognize b (rest ++ after) = ofSymbol b (b :: (rest ++ after)) := by
  have hshape := Symbol.shape htext
  have hdash :
      ¬(decide (b = Byte.dash) && (rest ++ after).head? == some Byte.dash) =
        true := by
    intro hdashes
    obtain ⟨rfl, hhead⟩ : b = Byte.dash ∧
        (rest ++ after).head? = some Byte.dash := by simpa using hdashes
    rw [hshape.dash rfl] at hhead
    exact hafter.head?_ne rfl hhead
  have hnumeral :
      ¬(Byte.isDigit b ||
        (decide (b = Byte.dot) && Byte.isDigit ((rest ++ after).headD 0))) =
        true := by
    intro hbegins
    obtain ⟨rfl, hdigit⟩ : b = Byte.dot ∧
        Byte.isDigit (Numeral.peek (rest ++ after)) = true := by
      simpa [hshape.digit, Numeral.peek] using hbegins
    by_cases hempty : rest = []
    · rw [hempty, List.nil_append, hafter.ends.not_digit] at hdigit
      cases hdigit
    · rw [Numeral.peek_append hempty, hshape.dot rfl] at hdigit
      cases hdigit
  have hopen : LongBracket.open? (b :: (rest ++ after)) = none := by
    by_cases hb : b = Byte.openBracket
    · rw [hb, hshape.bracket hb]
      exact open?_of_apart hafter
    · unfold LongBracket.open?
      split
      next heq => exact absurd (List.cons.inj heq).1 hb
      next => rfl
  unfold recognize
  rw [if_neg hdash, if_neg (by simp [hshape.name]), if_neg hnumeral,
    if_neg (by simp [hshape.quote]), hopen]

end Front

/-- A lexeme that stands apart is recognized as a whole. -/
theorem Lexeme.recognize_eq {text : Bytes} {content : Content}
    (h : Lexeme text content) {b : UInt8} {rest : Bytes}
    (htext : text = b :: rest) {after : Bytes} (hafter : Apart after) :
    Front.recognize b (rest ++ after) = .ofContent content text.length := by
  cases h with
  | @word first tail hfirst htail =>
      obtain ⟨rfl, rfl⟩ := List.cons.inj htext
      have hname : Byte.isNameByte first = true := by
        simp [Byte.isNameByte, hfirst]
      have htake : (first :: (tail ++ after)).takeWhile Byte.isNameByte =
          first :: tail :=
        Numeral.takeWhile_append (List.forall_mem_cons.2 ⟨hname, htail⟩)
          hafter.ends.1
      rw [Front.recognize_word hfirst, Front.ofWord_eq, htake]
  | @numeral text value hliteral =>
      obtain ⟨first, tail, rfl, hbegins⟩ := hliteral.begins
      obtain ⟨rfl, rfl⟩ := List.cons.inj htext
      have hread : Numeral.read (first :: (tail ++ after)) =
          .number value after := hliteral.read_eq hafter.ends
      have hlength : (first :: (tail ++ after)).length - after.length =
          (first :: tail).length := by
        simp only [List.length_cons, List.length_append]
        omega
      rw [Front.recognize_numeral]
      · unfold Front.ofNumeral
        rw [hread]
        dsimp only [Numeral.Reading.content, Numeral.Reading.rest]
        rw [hlength]
      · refine hbegins.imp_right (And.imp_right ?_)
        intro hdigit
        have hne : tail ≠ [] := by
          rintro rfl
          cases hdigit
        rwa [Numeral.peek_append hne]
  | @quoted quote body hquote hbody =>
      obtain ⟨rfl, rfl⟩ := List.cons.inj htext
      have hread : Front.quotedBody quote (body ++ [quote] ++ after) =
          (true, body) := by
        rw [List.append_assoc]
        exact Front.quotedBody_stable hbody after
      rw [Front.recognize_quote hquote]
      unfold Front.ofQuote
      rw [hread]
      simp
  | @bracketed level body hbody =>
      have hread := LongBracket.body?_stable hbody after
      have hfront : b :: (rest ++ after) = LongBracket.opener level ++
          (body ++ (LongBracket.closer level ++ after)) := by
        rw [← List.cons_append, ← htext]
        simp
      rw [Front.recognize_bracket hfront]
      unfold Front.ofLongBracket
      rw [hread]
      dsimp only
      congr 1
      simp only [LongBracket.size, List.length_append,
        LongBracket.length_opener, LongBracket.length_closer]
      omega
  | symbol sign =>
      rw [Front.recognize_symbol htext hafter]
      unfold Front.ofSymbol
      rw [← List.cons_append, ← htext, sign.atFront?_append hafter]

/-! ## What is found is a lexeme -/

namespace Front

def Takes (front : Front) (text : Bytes) : Prop :=
  ∀ content, front.content = some content → content.kind ≠ .fault →
    content.kind.isComment = false →
    Lexeme (text.take (front.more + 1)) content

theorem Takes.of_lexeme {text rest : Bytes} {content : Content}
    (h : Lexeme text content) :
    (ofContent content text.length).Takes (text ++ rest) := by
  intro found hfound _ _
  obtain rfl : content = found := by simpa [ofContent] using hfound
  obtain ⟨b, tail, rfl, -, -⟩ := h.first
  change Lexeme (((b :: tail) ++ rest).take ((b :: tail).length)) content
  rwa [List.take_left]

theorem Takes.of_fault (cause : Fault) (byte : UInt8) (length : Nat)
    (text : Bytes) : (ofContent (.fault cause byte) length).Takes text := by
  intro found hfound hkind _
  obtain rfl : Content.fault cause byte = found := by
    simpa [ofContent] using hfound
  exact absurd rfl hkind

theorem Takes.comment (form : CommentForm) (body : Bytes) (length : Nat)
    (text : Bytes) : (comment form body length).Takes text := by
  intro found hfound _ hkind
  have hcomment : found.kind.isComment = true := by
    unfold Front.comment at hfound
    split at hfound
    all_goals
      injection hfound with hfound
      rw [← hfound]
      rfl
  rw [hkind] at hcomment
  cases hcomment

theorem Takes.none (more : Nat) (text : Bytes) : Takes ⟨none, more⟩ text := by
  intro found hfound
  cases hfound

theorem takes_ofDashes (rest text : Bytes) : (ofDashes rest).Takes text := by
  unfold ofDashes
  split
  next =>
    split
    next => exact .of_fault _ _ _ _
    next =>
      dsimp only
      split
      next => exact .comment _ _ _ _
      next => exact .none _ _
  next =>
    split
    next => exact .comment _ _ _ _
    next => exact .none _ _

theorem takes_ofWord {b : UInt8} (hb : Byte.isNameStart b = true) (rest : Bytes) :
    (ofWord (b :: rest)).Takes (b :: rest) := by
  have hname : Byte.isNameByte b = true := by simp [Byte.isNameByte, hb]
  have htake : (b :: rest).takeWhile Byte.isNameByte = b ::
      rest.takeWhile Byte.isNameByte := by simp [hname]
  have hlexeme := Lexeme.word hb (Numeral.allOf_takeWhile Byte.isNameByte rest)
  have hsplit :=
    List.takeWhile_append_dropWhile (p := Byte.isNameByte) (l := b :: rest)
  rw [htake] at hsplit
  rw [ofWord_eq, htake, ← hsplit]
  exact .of_lexeme hlexeme

theorem takes_ofNumeral (text : Bytes) : (ofNumeral text).Takes text := by
  unfold ofNumeral
  dsimp only
  cases hread : Numeral.read text with
  | malformed byte rest => exact .of_fault _ _ _ _
  | number value rest =>
      obtain ⟨word, rfl, hliteral⟩ := Numeral.isLiteral_of_read hread
      have hlength : (word ++ rest).length - rest.length = word.length := by simp
      dsimp only [Numeral.Reading.content, Numeral.Reading.rest]
      rw [hlength]
      exact .of_lexeme (.numeral hliteral)

theorem takes_ofQuote {quote : UInt8}
    (hquote : quote = Byte.quote ∨ quote = Byte.apostrophe) (rest : Bytes) :
    (ofQuote quote rest).Takes (quote :: rest) := by
  have hquotes := quotes_quotedBody quote rest
  unfold ofQuote
  cases hread : quotedBody quote rest with
  | mk closed body =>
      rw [hread] at hquotes
      cases closed with
      | false => exact .of_fault _ _ _ _
      | true =>
          obtain ⟨after, rfl⟩ := hquotes
          have hlexeme := Lexeme.quoted hquote (quotedBody_stable hread [])
          have htext : quote :: (body ++ quote :: after) = quote ::
              (body ++ [quote]) ++ after := by simp
          have hlength :
              body.length + 2 = (quote :: (body ++ [quote])).length := by simp
          rw [htext]
          dsimp only
          rw [if_pos rfl, hlength]
          exact .of_lexeme hlexeme

theorem takes_ofLongBracket (level : Nat) (inner : Bytes) :
    (ofLongBracket level inner).Takes (LongBracket.opener level ++ inner) := by
  unfold ofLongBracket
  cases hread : LongBracket.body? level inner with
  | none => exact .of_fault _ _ _ _
  | some body =>
      obtain ⟨after, rfl, -⟩ := LongBracket.body?_eq_some hread
      have hstable := LongBracket.body?_stable hread []
      rw [List.append_nil] at hstable
      have htext : LongBracket.opener level ++
          (body ++ (LongBracket.closer level ++ after)) =
          LongBracket.opener level ++ (body ++ LongBracket.closer level) ++
            after := by simp
      have hlength : LongBracket.size level body =
          (LongBracket.opener level ++
            (body ++ LongBracket.closer level)).length := by
        simp only [LongBracket.size, List.length_append,
          LongBracket.length_opener, LongBracket.length_closer]
        omega
      rw [htext]
      dsimp only
      rw [hlength]
      exact .of_lexeme (.bracketed hstable)

theorem takes_ofSymbol (b : UInt8) (text : Bytes) :
    (ofSymbol b text).Takes text := by
  unfold ofSymbol
  cases hfound : Symbol.atFront? text with
  | none => exact .of_fault _ _ _ _
  | some sign =>
      have hfront := List.find?_some hfound
      obtain ⟨after, rfl⟩ := List.isPrefixOf_iff_prefix.1 hfront
      exact .of_lexeme (.symbol sign)

theorem takes_recognize (b : UInt8) (rest : Bytes) :
    (recognize b rest).Takes (b :: rest) := by
  unfold recognize
  split
  next => exact takes_ofDashes _ _
  next =>
    split
    next hname => exact takes_ofWord hname rest
    next =>
      split
      next => exact takes_ofNumeral _
      next =>
        split
        next hquote => exact takes_ofQuote (by simpa using hquote) rest
        next =>
          split
          next level inner hopen =>
            rw [LongBracket.eq_of_open? hopen]
            exact takes_ofLongBracket level inner
          next => exact takes_ofSymbol b _

end Front

end LuaGloss

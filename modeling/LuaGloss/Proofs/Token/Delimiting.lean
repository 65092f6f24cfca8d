import LuaGloss.Proofs.Token.Lexeme
import LuaGloss.Proofs.Token.Tiling

/-!
# Tokens delimit themselves

The tokens that the grammar sees depend on nothing but their own texts.  Written
one after the other with a space between them, the texts are read as the same
tokens again; so white space, comments of either kind and a first line that
begins with `#!` decide nothing.
-/

namespace LuaGloss

namespace Token

/-- The text that a token covers in its source. -/
def span (t : Token) (source : Bytes) : Bytes :=
  source.slice t.pos.offset t.pos.stop

/-- What a token says: its kind, its value and, for a number, the number. -/
def meaning (t : Token) : TokenKind × Bytes × Content :=
  (t.kind, t.value, t.content)

def isGrammatical (t : Token) : Bool := t.channel == .main && t.kind != .endOfInput

end Token

/-- The tokens that the grammar sees, without the end of the input. -/
def grammarTokens (source : Bytes) : List Token :=
  (tokenize source).filter (·.isGrammatical)

/-- The texts of these tokens, with a space between them. -/
def spaced (source : Bytes) : Bytes :=
  Bytes.join [Byte.space] ((grammarTokens source).map (·.span source))

namespace Scanner

/-! ## What is found -/

theorem lexeme_next (s : Scanner) (hgrammar : s.next.1.isGrammatical = true)
    (hfault : s.next.1.kind ≠ .fault) :
    Lexeme s.next.1.lexeme s.next.1.content := by
  fun_induction next s with
  | case1 s hend => cases hgrammar
  | case2 s b rest hrest front length content hcontent =>
      have hcomment : content.kind.isComment = false := by
        by_contra hcomment
        have hchannel : (s.skipBlanks.token content length).channel = .comments :=
          if_pos (show content.kind.isComment = true by simpa using hcomment)
        simp [Token.isGrammatical, hchannel] at hgrammar
      have hlexeme := Front.takes_recognize b rest content hcontent hfault hcomment
      change Lexeme (s.skipBlanks.rest.take length) content
      rwa [hrest]
  | case3 s b rest hrest front length hcontent ih => exact ih hgrammar hfault

variable {s : Scanner}

theorem lexeme_of_mem {t : Token} (ht : t ∈ (s.tokensOn allChannels).1)
    (hgrammar : t.isGrammatical = true) (hfault : t.kind ≠ .fault) :
    Lexeme t.lexeme t.content := by
  generalize hmask : allChannels = mask at ht
  fun_induction tokensOn mask s with
  | case1 s hlast =>
      rw [← hmask, nextOn_allChannels] at ht
      obtain rfl := List.mem_singleton.1 ht
      exact s.lexeme_next hgrammar hfault
  | case2 s hlast more ih =>
      rcases List.mem_cons.1 ht with rfl | hmore
      · rw [← hmask, nextOn_allChannels] at hgrammar hfault ⊢
        exact s.lexeme_next hgrammar hfault
      · exact ih hmore

/-! ## What is read -/

theorem next_of_rest_eq_nil (h : s.skipBlanks.rest = []) :
    s.next.1.content = .endOfInput ∧ s.next.1.lexeme = [] := by
  unfold next
  split
  next => exact ⟨rfl, rfl⟩
  next hrest =>
    rw [h] at hrest
    cases hrest

theorem next_of_content {b : UInt8} {rest : Bytes} {content : Content}
    (hrest : s.skipBlanks.rest = b :: rest)
    (hcontent : (Front.recognize b rest).content = some content) :
    s.next = (s.skipBlanks.token content ((Front.recognize b rest).more + 1),
      s.skipBlanks.advance ((Front.recognize b rest).more + 1)) := by
  unfold next
  split
  next hnil =>
    rw [hrest] at hnil
    cases hnil
  next _ _ hcons =>
    obtain ⟨rfl, rfl⟩ := List.cons.inj (hrest.symm.trans hcons)
    dsimp only
    rw [hcontent]

theorem next_of_lexeme {text after : Bytes} {content : Content}
    (h : Lexeme text content) (hrest : s.skipBlanks.rest = text ++ after)
    (hafter : Apart after) :
    s.next.1.content = content ∧ s.next.1.lexeme = text ∧
    s.next.2.rest = after := by
  obtain ⟨b, tail, rfl, -, -⟩ := h.first
  have hfront := h.recognize_eq rfl hafter
  have hnext :=
    next_of_content (show s.skipBlanks.rest = b :: (tail ++ after) from hrest)
      (congrArg Front.content hfront)
  have hmore :
      (Front.recognize b (tail ++ after)).more + 1 = (b :: tail).length := by
    rw [hfront]
    rfl
  rw [hmore] at hnext
  rw [hnext]
  refine ⟨rfl, ?_, ?_⟩
  · change s.skipBlanks.rest.take _ = _
    rw [hrest, List.take_left]
  · change s.skipBlanks.rest.drop _ = _
    rw [hrest, List.drop_left]

theorem tokensOn_of_isLast (h : s.next.1.isLast = true) :
    (s.tokensOn allChannels).1 = [s.next.1] := by
  rw [tokensOn, nextOn_allChannels, dif_pos h]

theorem tokensOn_of_not_isLast (h : s.next.1.isLast = false) :
    (s.tokensOn allChannels).1 = s.next.1 ::
      (s.next.2.tokensOn allChannels).1 := by
  rw [tokensOn, nextOn_allChannels, dif_neg (by simp [h])]

def joinTail : List Bytes → Bytes
  | [] => []
  | words => Byte.space :: Bytes.join [Byte.space] words

theorem join_cons (word : Bytes) (words : List Bytes) :
    Bytes.join [Byte.space] (word :: words) = word ++ joinTail words := by
  cases words <;> simp [Bytes.join, List.intercalate, joinTail]

theorem apart_joinTail (words : List Bytes) : Apart (joinTail words) := by
  intro b hb
  cases words with
  | nil => cases hb
  | cons word words =>
      obtain rfl : Byte.space = b := by simpa [joinTail] using hb
      rfl

theorem dropWhile_join {words : List (Bytes × Content)}
    (hwords : ∀ word ∈ words, Lexeme word.1 word.2) :
    (Bytes.join [Byte.space] (words.map Prod.fst)).dropWhile Byte.isBlank =
      Bytes.join [Byte.space] (words.map Prod.fst) := by
  cases words with
  | nil => rfl
  | cons word words =>
      obtain ⟨b, rest, htext, hblank, -⟩ := (hwords word List.mem_cons_self).first
      rw [List.map_cons, join_cons, htext, List.cons_append,
        List.dropWhile_cons_of_neg (by simp [hblank])]

theorem rest_skipBlanks_eq (s : Scanner) :
    s.skipBlanks.rest = s.rest.dropWhile Byte.isBlank := by
  have hsplit := List.takeWhile_append_dropWhile (p := Byte.isBlank) (l := s.rest)
  exact List.append_cancel_left (s.rest_skipBlanks.symm.trans hsplit.symm)

theorem skipBlanks_joinTail {words : List (Bytes × Content)}
    (hwords : ∀ word ∈ words, Lexeme word.1 word.2) {s : Scanner}
    (hrest : s.rest = joinTail (words.map Prod.fst)) :
    s.skipBlanks.rest = Bytes.join [Byte.space] (words.map Prod.fst) := by
  rw [rest_skipBlanks_eq, hrest]
  cases words with
  | nil => rfl
  | cons word words =>
      change (Byte.space ::
        Bytes.join [Byte.space] ((word :: words).map Prod.fst)).dropWhile
          Byte.isBlank = _
      rw [List.dropWhile_cons_of_pos rfl, dropWhile_join hwords]

/-- Lexemes with a space between them are read one after the other. -/
theorem tokensOn_join {words : List (Bytes × Content)}
    (hwords : ∀ word ∈ words, Lexeme word.1 word.2) {s : Scanner}
    (hrest : s.skipBlanks.rest = Bytes.join [Byte.space] (words.map Prod.fst)) :
    (s.tokensOn allChannels).1.map (fun t => (t.lexeme, t.content)) = words ++
      [([], .endOfInput)] := by
  induction words generalizing s with
  | nil =>
      obtain ⟨hcontent, hlexeme⟩ := next_of_rest_eq_nil hrest
      have hlast : s.next.1.isLast = true := by simp [Token.isLast, hcontent]
      simp [tokensOn_of_isLast hlast, hcontent, hlexeme]
  | cons word words ih =>
      obtain ⟨hword, hmore⟩ := List.forall_mem_cons.1 hwords
      rw [List.map_cons, join_cons] at hrest
      obtain ⟨hcontent, hlexeme, hnext⟩ :=
        next_of_lexeme hword hrest (apart_joinTail _)
      have hlast : s.next.1.isLast = false := by
        by_contra hlast
        have hkind := Token.kind_of_isLast (by simpa using hlast)
        obtain ⟨hend, hfault, -⟩ := hword.kind
        rw [← hcontent] at hend hfault
        exact hkind.elim hfault hend
      rw [tokensOn_of_not_isLast hlast, List.map_cons,
        ih hmore (skipBlanks_joinTail hmore hnext), hlexeme, hcontent]
      rfl

/-! ## Spans -/

theorem Reads.span {source before gap : Bytes} {s s' : Scanner} {t : Token}
    (h : s.Reads source before) (hfound : s.Finds gap t s') :
    t.span source = t.lexeme := by
  have hsource : source = (before ++ gap) ++ (t.lexeme ++ s'.rest) := by
    rw [h.text, hfound.text, List.append_assoc]
  have hoffset : t.pos.offset = (before ++ gap).length := by
    rw [hfound.offset, h.offset, List.length_append]
  have hstop : t.pos.stop = (before ++ gap).length + t.lexeme.length := by
    unfold Pos.stop
    rw [hoffset, hfound.length]
  have hmiddle :=
    Bytes.slice_middle (before ++ gap) s'.rest (Nat.le_refl t.lexeme.length) 0
  rw [← hsource, Nat.add_zero, ← hstop, ← hoffset] at hmiddle
  unfold Token.span
  rw [hmiddle]
  simp [Bytes.slice]

theorem Tiles.span {source before : Bytes} {s : Scanner} {ts : List Token}
    (h : s.Tiles ts) (hs : s.Reads source before) :
    ∀ t ∈ ts, t.span source = t.lexeme :=
  h.forall_of_finds hs fun hs hfound => hs.span hfound

theorem ofSource_join {words : List (Bytes × Content)}
    (hwords : ∀ word ∈ words, Lexeme word.1 word.2) :
    ofSource (Bytes.join [Byte.space] (words.map Prod.fst)) =
      ⟨Bytes.join [Byte.space] (words.map Prod.fst), .start⟩ := by
  have hnot :
      ¬(utf8 "#!").isPrefixOf (Bytes.join [Byte.space] (words.map Prod.fst)) =
        true := by
    rw [List.isPrefixOf_iff_prefix]
    rintro ⟨more, hmore⟩
    cases words with
    | nil => cases hmore
    | cons word words =>
        obtain ⟨b, rest, htext, -, hhash⟩ := (hwords word List.mem_cons_self).first
        rw [List.map_cons, join_cons, htext] at hmore
        obtain ⟨rfl, hrest⟩ :=
          List.cons.inj (show Byte.hash :: Byte.bang :: more = b ::
            (rest ++ joinTail _) from hmore)
        rw [hhash rfl] at hrest
        exact (apart_joinTail _).head?_ne rfl (congrArg List.head? hrest).symm
  unfold ofSource
  rw [if_neg hnot]

end Scanner

/-! ## One token on its own -/

/-- The tokens of a source that is one token: the token from the start to the
end, and the end of the input. -/
def soleTokens (content : Content) (source : Bytes) : List Token :=
  [⟨content, ⟨0, source.length, 1, 1⟩, source⟩,
    ⟨.endOfInput, (Place.start.after source).pos 0, []⟩]

theorem Token.isLast_eq_false {t : Token} (hend : t.kind ≠ .endOfInput)
    (hfault : t.kind ≠ .fault) : t.isLast = false := by
  by_contra hlast
  exact (kind_of_isLast (by simpa using hlast)).elim hfault hend

theorem tokenize_of_recognize {b : UInt8} {rest : Bytes} {content : Content}
    (hblank : Byte.isBlank b = false) (hhash : b = Byte.hash → rest = [])
    (hend : content.kind ≠ .endOfInput) (hfault : content.kind ≠ .fault)
    (hfront : Front.recognize b rest = .ofContent content (b :: rest).length) :
    tokenize (b :: rest) = soleTokens content (b :: rest) := by
  have hsource : Scanner.ofSource (b :: rest) = ⟨b :: rest, .start⟩ := by
    have hnot : ¬(utf8 "#!").isPrefixOf (b :: rest) = true := by
      intro hfront
      obtain ⟨heq, hbang⟩ :=
        List.cons_prefix_cons.1 (List.isPrefixOf_iff_prefix.1 hfront)
      rw [hhash heq.symm] at hbang
      simp at hbang
    rw [Scanner.ofSource, if_neg hnot]
  have hskip :
      (⟨b :: rest, .start⟩ : Scanner).skipBlanks = ⟨b :: rest, .start⟩ := by
    have hblanks : (b :: rest).takeWhile Byte.isBlank = [] :=
      List.takeWhile_cons_of_neg (by simp [hblank])
    rw [Scanner.skipBlanks, hblanks]
    rfl
  have hnext : (⟨b :: rest, .start⟩ : Scanner).next =
      (⟨content, ⟨0, (b :: rest).length, 1, 1⟩, b :: rest⟩,
        ⟨[], Place.start.after (b :: rest)⟩) := by
    have hmore : (Front.recognize b rest).more + 1 = (b :: rest).length := by
      rw [hfront]
      rfl
    rw [Scanner.next_of_content (by rw [hskip]) (congrArg Front.content hfront),
      hskip, hmore, Scanner.token, Scanner.advance, List.take_length,
      List.drop_length]
    rfl
  have hlast : (⟨b :: rest, .start⟩ : Scanner).next.1.isLast = false := by
    rw [hnext]
    exact Token.isLast_eq_false hend hfault
  have hstop : (⟨[], Place.start.after (b :: rest)⟩ : Scanner).next =
      (⟨.endOfInput, (Place.start.after (b :: rest)).pos 0, []⟩,
        ⟨[], Place.start.after (b :: rest)⟩) := by
    rw [Scanner.next]
    rfl
  rw [tokenize, hsource, Scanner.tokensOn_of_not_isLast hlast, hnext,
    Scanner.tokensOn_of_isLast (by rw [hstop]; rfl), hstop]
  rfl

theorem Lexeme.tokenize_eq {text : Bytes} {content : Content}
    (h : Lexeme text content) : tokenize text = soleTokens content text := by
  obtain ⟨hend, hfault, -⟩ := h.kind
  obtain ⟨b, rest, rfl, hblank, hhash⟩ := h.first
  have hapart : Apart [] := by simp [Apart]
  have hfront := h.recognize_eq rfl hapart
  rw [List.append_nil] at hfront
  exact tokenize_of_recognize hblank hhash hend hfault hfront

/-! ## The tokens of a whole source -/

/-- What a token says is said by its text and its content. -/
theorem Token.map_meaning (ts : List Token) :
    ts.map meaning = (ts.map fun t => (t.lexeme, t.content)).map fun word =>
      meaning ⟨word.2, .none, word.1⟩ := by
  rw [List.map_map]
  rfl

theorem map_span_grammarTokens (source : Bytes) :
    (grammarTokens source).map (·.span source) =
      (grammarTokens source).map (·.lexeme) := by
  apply List.map_congr_left
  intro t ht
  exact (Scanner.tiles_tokensOn _).span (Scanner.reads_ofSource source) t
    (List.mem_filter.1 ht).1

theorem meaning_spaced {source : Bytes}
    (h : ∀ t ∈ tokenize source, t.kind ≠ .fault) :
    (tokenize (spaced source)).map Token.meaning =
      (grammarTokens source).map Token.meaning ++
        [(.endOfInput, [], .endOfInput)] := by
  have hwords :
      ∀ word ∈ (grammarTokens source).map fun t => (t.lexeme, t.content),
        Lexeme word.1 word.2 := by
    intro word hword
    obtain ⟨t, ht, rfl⟩ := List.mem_map.1 hword
    obtain ⟨hmem, hgrammar⟩ := List.mem_filter.1 ht
    exact Scanner.lexeme_of_mem hmem hgrammar (h t hmem)
  have htext : spaced source =
      Bytes.join [Byte.space]
        (((grammarTokens source).map fun t =>
          (t.lexeme, t.content)).map Prod.fst) := by
    unfold spaced
    rw [map_span_grammarTokens, List.map_map]
    rfl
  have hrest : (Scanner.ofSource (spaced source)).skipBlanks.rest =
      Bytes.join [Byte.space]
        (((grammarTokens source).map fun t =>
          (t.lexeme, t.content)).map Prod.fst) := by
    rw [htext, Scanner.ofSource_join hwords, Scanner.rest_skipBlanks_eq,
      Scanner.dropWhile_join hwords]
  have hread := Scanner.tokensOn_join hwords hrest
  rw [Token.map_meaning, Token.map_meaning (grammarTokens source)]
  unfold tokenize
  rw [hread, List.map_append]
  rfl

/-- For every source without faults, the texts of the tokens that the grammar
sees, with a space between them, are read as the same kinds, values and numbers
and the end of the input.  So two sources without faults in which these texts
are the same mean the same to the grammar, whatever white space, comments and
first line to be passed over stand between them. -/
theorem tokens_self_delimiting {source : Bytes}
    (h : ∀ t ∈ tokenize source, t.kind ≠ .fault) :
    (tokenize (spaced source)).map Token.meaning =
        (grammarTokens source).map Token.meaning ++
          [(.endOfInput, [], .endOfInput)] ∧
      ∀ other, (∀ t ∈ tokenize other, t.kind ≠ .fault) →
        (grammarTokens other).map (·.span other) =
          (grammarTokens source).map (·.span source) →
        (grammarTokens other).map Token.meaning =
          (grammarTokens source).map Token.meaning := by
  refine ⟨meaning_spaced h, ?_⟩
  intro other hother hspans
  have hsame : spaced other = spaced source := by
    unfold spaced
    rw [hspans]
  have hread := meaning_spaced hother
  rw [hsame, meaning_spaced h] at hread
  exact (List.append_cancel_right hread).symm

/-- A line to be passed over, comments of both kinds, a number before two points
and a long string. -/
private def wovenSample : Bytes := utf8 "#!x\nx=0x1p4--c\n..--!d\n[=[y]]]=]"

theorem tokens_self_delimiting_woven :
    (∀ t ∈ tokenize wovenSample, t.kind ≠ .fault) ∧
      spaced wovenSample = utf8 "x = 0x1p4 .. [=[y]]]=]" ∧
      (tokenize (utf8 "x = 0x1p4 .. [=[y]]]=]")).map Token.meaning =
        (grammarTokens wovenSample).map Token.meaning ++
          [(.endOfInput, [], .endOfInput)] ∧
      (grammarTokens (utf8 "x=0x1p4 ..[=[y]]]=]")).map Token.meaning =
        (grammarTokens wovenSample).map Token.meaning := by
  have hfaults : ∀ t ∈ tokenize wovenSample, t.kind ≠ .fault := by decide +kernel
  have hspaced : spaced wovenSample = utf8 "x = 0x1p4 .. [=[y]]]=]" := by
    decide +kernel
  obtain ⟨hread, hother⟩ := tokens_self_delimiting hfaults
  refine ⟨hfaults, hspaced, ?_, ?_⟩
  · rwa [hspaced] at hread
  · exact hother _ (by decide +kernel) (by decide +kernel)

end LuaGloss

import LuaGloss.Catalog.Source
import LuaGloss.Proofs.Syntax.Arrangement
import LuaGloss.Proofs.Syntax.Completeness
import LuaGloss.Proofs.Token.Tiling

/-!
# Which sources are accepted

Reading a source reports an error or accepts it, and what is accepted is decided
by the kinds of its tokens alone: no comment and nothing that is known from
other sources plays a part.  Every accepted source is a block of the grammar.
The converse holds for blocks that separate their statements by semicolons;
without them a name or a parenthesis that begins a statement may be read as the
continuation of the one before it.
-/

namespace LuaGloss

/-- The kinds of the tokens that the grammar sees, with the end of the input or
a fault at the end. -/
def mainKinds (source : Bytes) : List TokenKind :=
  ((tokenize source).filter (·.channel = .main)).map (·.kind)

/-! ## The end of a token stream -/

namespace Token

theorem channel_eq_main {t : Token} :
    t.channel = .main ↔ t.kind.isComment = false := by
  unfold channel
  cases h : t.kind.isComment <;> simp

theorem isComment_of_isLast {t : Token} (h : t.isLast = true) :
    t.kind.isComment = false := by
  unfold isLast at h
  unfold kind
  split at h
  next hcontent => simp [hcontent, Content.kind, TokenKind.isComment]
  next hcontent => simp [hcontent, Content.kind, TokenKind.isComment]
  next => simp at h

theorem ofToken?_eq_none {t : Token} {file : Bytes} :
    SourceError.ofToken? file t = none ↔ t.kind ≠ .fault := by
  unfold SourceError.ofToken? kind
  cases hcontent : t.content <;> simp [Content.kind]

end Token

/-- What the grammar sees of a source: the tokens before the last one, which is
kept. -/
theorem filter_main_tokenize (source : Bytes) :
    ∃ before last, (tokenize source).filter (!·.kind.isComment) =
      before ++ [last] ∧
      (∀ t ∈ tokenize source, t.kind = .fault → t = last) ∧
      (last.kind = .fault ∨ last.kind = .endOfInput) := by
  obtain ⟨before, last, heq, hlast, hbefore⟩ :=
    (Scanner.ofSource source).tokensOn_eq allChannels
  refine ⟨before.filter (!·.kind.isComment), last, ?_, ?_,
    Token.kind_of_isLast hlast⟩
  · simp [tokenize, heq, Token.isComment_of_isLast hlast]
  · intro t ht hfault
    have hmem : t ∈ before ∨ t = last := by simpa [tokenize, heq] using ht
    rcases hmem with hmem | rfl
    · have := hbefore t hmem
      simp [Token.isLast_of_kind (.inl hfault)] at this
    · rfl

theorem filter_channel (tokens : List Token) :
    tokens.filter (·.channel = .main) = tokens.filter (!·.kind.isComment) := by
  congr 1
  funext t
  rw [Bool.eq_iff_iff]
  simp [Token.channel_eq_main]

theorem mainKinds_eq {source : Bytes} {before : List Token} {last : Token}
    (h : (tokenize source).filter (!·.kind.isComment) = before ++ [last]) :
    mainKinds source = before.map (·.kind) ++ [last.kind] := by
  simp [mainKinds, filter_channel, h]

/-! ## Outlines -/

theorem Outline.ofTokens_error (source : Bytes) (finish : Pos)
    (tokens : List Token) :
    (Outline.ofTokens source finish tokens).error = none →
      Derives false .block (tokens.map (·.kind)) [] := by
  intro hnone
  obtain ⟨tree, htree, htokens, -⟩ := Outline.exists_tree hnone
  simpa [htokens] using htree.derives []

theorem Outline.ofTokens_error_eq_none {source : Bytes} {finish : Pos}
    {tokens : List Token} (h : Derives true .block (tokens.map (·.kind)) []) :
    (Outline.ofTokens source finish tokens).error = none := by
  have hcomplete := (Grammar.complete_upTo (tokens.length + 1)).chunk h
    ⟨source, finish⟩ ⟨tokens, .none, Nat.lt_succ_self _⟩ rfl
  unfold Outline.ofTokens
  dsimp only
  split
  next => rfl
  next e herror =>
    rw [herror] at hcomplete
    simp at hcomplete

namespace Catalog

/-- A source is accepted if it has no lexical error and its outline no syntax
error. -/
theorem readSource_eq_none {c : Catalog} {file source : Bytes} :
    (c.readSource file source).1 = none ↔
      (∀ t ∈ tokenize source, t.kind ≠ .fault) ∧
        (Outline.ofSource source (tokenize source)).error = none := by
  have hfaults : (tokenize source).findSome? (SourceError.ofToken? file) = none ↔
      ∀ t ∈ tokenize source, t.kind ≠ .fault := by
    simp [List.findSome?_eq_none_iff, Token.ofToken?_eq_none]
  unfold readSource
  dsimp only
  split
  next e herror =>
    have : ¬ ∀ t ∈ tokenize source, t.kind ≠ .fault := by
      rw [← hfaults, herror]
      simp
    simp [this]
  next hnone =>
    rw [hfaults] at hnone
    split
    next e herror => simp [herror]
    next herror => exact ⟨fun _ => ⟨hnone, herror⟩, fun _ => rfl⟩

/-- A source that is read without an error is a block of the grammar up to the
end of its input, and every block in which semicolons follow the statements is
read without one. -/
theorem readSource_accepts (c : Catalog) (file source : Bytes) :
    ((c.readSource file source).1 = none →
      ∃ ks, mainKinds source = ks ++ [.endOfInput] ∧ Derives false .block ks []) ∧
    ∀ ks, Derives true .block ks [] → mainKinds source = ks ++ [.endOfInput] →
      (c.readSource file source).1 = none := by
  obtain ⟨before, last, hmain, hfault, hlast⟩ := filter_main_tokenize source
  have hkinds := mainKinds_eq hmain
  rw [readSource_eq_none]
  unfold Outline.ofSource
  simp only [hmain, List.dropLast_concat]
  constructor
  · rintro ⟨hnone, herror⟩
    have hmem : last ∈ tokenize source := by
      have : last ∈ (tokenize source).filter (!·.kind.isComment) := by simp [hmain]
      exact (List.mem_filter.1 this).1
    have hend := hlast.resolve_left (hnone last hmem)
    refine ⟨before.map (·.kind), by rw [hkinds, hend], ?_⟩
    exact Outline.ofTokens_error source _ before herror
  · intro ks hderives heq
    rw [hkinds] at heq
    obtain ⟨rfl, hend⟩ := List.append_inj' heq rfl
    have hend : last.kind = .endOfInput := by simpa using hend
    refine ⟨?_, Outline.ofTokens_error_eq_none hderives⟩
    intro t ht hkind
    have := hfault t ht hkind
    subst this
    simp [hkind] at hend

end Catalog

private def sampleKinds : List TokenKind :=
  [.name, .symbol .assign, .name, .symbol .leftBrace, .name,
    .symbol .rightBrace, .symbol .semicolon,
    .keyword .return_, .symbol .minus, .name]

private theorem derives_sampleKinds : Derives true .block sampleKinds [] := by
  have hname {rest} :
      Derives true .expression (.name :: .symbol .rightBrace :: rest)
        (.symbol .rightBrace :: rest) :=
    .expression (.simple (.suffixedValue (.ofName .noSuffix))) .noOperator
  have hcall {rest} : Derives true .expression
      (.name :: .symbol .leftBrace :: .name :: .symbol .rightBrace :: rest) rest :=
    .expression
      (.simple (.suffixedValue
        (.ofName (.call (.argumentTable (.table (.lastEntry (.entry hname))))
          .noSuffix))))
      .noOperator
  have hreturn : Derives true .result [.symbol .minus, .name] [] :=
    .resultValues (.value (.expression
      (.unary (by decide) (.simple (.suffixedValue (.ofName .noSuffix))))
      .noOperator))
  exact .blockStatement
    (.assign (.ofName .noSuffix) .noMoreVariables (.value hcall))
    (fun _ => .inr rfl)
    (.blockStatement .empty (fun _ => .inl rfl) (.blockReturn hreturn))

private theorem mainKinds_sample :
    mainKinds (utf8 "a=f{b};--!x\nreturn-a") = sampleKinds ++ [.endOfInput] := by
  decide +kernel

theorem Catalog.readSource_accepts_sample :
    ((Catalog.empty .empty).readSource []
        (utf8 "a=f{b};--!x\nreturn-a")).1 = none ∧
      ∃ ks, mainKinds (utf8 "a=f{b};--!x\nreturn-a") = ks ++ [.endOfInput] ∧
      Derives false .block ks [] := by
  obtain ⟨hsound, hcomplete⟩ :=
    Catalog.readSource_accepts (.empty .empty) [] (utf8 "a=f{b};--!x\nreturn-a")
  have haccepted := hcomplete sampleKinds derives_sampleKinds mainKinds_sample
  exact ⟨haccepted, hsound haccepted⟩

end LuaGloss

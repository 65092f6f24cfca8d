import LuaGloss.Proofs.Syntax.Acceptance
import LuaGloss.Proofs.Syntax.Trail

/-!
# Sources that cannot be read

A source with a piece of text that is no token is refused as a whole: the error
is that of this piece, and nothing but the text of the source is kept.  A source
whose tokens the grammar does not admit is read up to the error, which stands at
one of the tokens.  In either case the recorder can be used for the next source
as if it were new, since nothing of what the last source has left behind is ever
looked at.
-/

namespace LuaGloss

/-! ## Lexical errors -/

theorem findSome?_tokenize {source : Bytes} {t : Token}
    (ht : t ∈ tokenize source) {cause : Fault} {byte : UInt8}
    (hfault : t.content = .fault cause byte) (file : Bytes) :
    (tokenize source).findSome? (SourceError.ofToken? file) =
      some (.lexical file t.pos cause byte) := by
  have herror :
      SourceError.ofToken? file t = some (.lexical file t.pos cause byte) := by
    simp [SourceError.ofToken?, hfault]
  obtain ⟨before, last, -, honly, -⟩ := filter_main_tokenize source
  have hkind : t.kind = .fault := by simp [Token.kind, hfault, Content.kind]
  cases hfound : (tokenize source).findSome? (SourceError.ofToken? file) with
  | none =>
      have := List.findSome?_eq_none_iff.1 hfound t ht
      simp [herror] at this
  | some error =>
      obtain ⟨u, hu, hreported⟩ := List.exists_of_findSome?_eq_some hfound
      have hu' : u.kind = .fault := by
        by_contra hother
        rw [Token.ofToken?_eq_none.2 hother] at hreported
        simp at hreported
      have hsame : u = t := (honly u hu hu').trans (honly t ht hkind).symm
      rw [← hreported, hsame, herror]

theorem findSome?_tokenize_eq_none {source : Bytes}
    (h : ∀ t ∈ tokenize source, t.kind ≠ .fault) (file : Bytes) :
    (tokenize source).findSome? (SourceError.ofToken? file) = none := by
  rw [List.findSome?_eq_none_iff]
  intro t ht
  exact Token.ofToken?_eq_none.2 (h t ht)

/-! ## Syntax errors -/

/-- A syntax error stands at a token of the grammar or at the end of the input,
which is the last of them. -/
theorem Outline.pos_error_ofSource {source : Bytes} {e : SyntaxError}
    (h : (Outline.ofSource source (tokenize source)).error = some e) :
    ∃ t ∈ tokenize source, t.channel = .main ∧ t.pos = e.pos := by
  obtain ⟨before, last, heq, -, -⟩ := filter_main_tokenize source
  have hmain (t : Token) (ht : t ∈ before ++ [last]) : t ∈ tokenize source ∧
      t.channel = .main := by
    rw [← heq] at ht
    obtain ⟨hmem, hkind⟩ := List.mem_filter.1 ht
    exact ⟨hmem, Token.channel_eq_main.2 (by simpa using hkind)⟩
  unfold Outline.ofSource at h
  rw [heq] at h
  simp only [List.getLast?_concat, List.dropLast_concat, Option.map_some,
    Option.getD_some] at h
  rcases Outline.pos_error h with hfinish | ⟨t, ht, hpos⟩
  · obtain ⟨hmem, hchannel⟩ := hmain last (by simp)
    exact ⟨last, hmem, hchannel, hfinish.symm⟩
  · obtain ⟨hmem, hchannel⟩ := hmain t (by simp [ht])
    exact ⟨t, hmem, hchannel, hpos.symm⟩

/-! ## One source after the other -/

namespace Recorder

theorem reset_eq_start (r : Recorder) (file source : Bytes)
    (tokens : List Token) :
    { r.reset file source with comments := .ofTokens tokens } =
      start
        { r.catalog with
          declarations := r.catalog.declarations.addSource ⟨file, source⟩ }
        file source tokens := rfl

theorem readNext_eq_idle (r : Recorder) (file source : Bytes) :
    r.readNext file source = (idle r.catalog).readNext file source := rfl

/-- A recorder reads a source in the way in which a catalog does. -/
theorem readNext_eq_readSource (r : Recorder) (file source : Bytes) :
    ((r.readNext file source).1, (r.readNext file source).2.catalog) =
      r.catalog.readSource file source := by
  unfold readNext Catalog.readSource recordSource
  simp only [reset_eq_start]
  cases (tokenize source).findSome? (SourceError.ofToken? file) with
  | some error => rfl
  | none =>
      cases (Outline.ofSource source (tokenize source)).error with
      | some error => rfl
      | none => rfl

/-- If a source has a fault, the error is that of the fault, and the text of the
source is kept and nothing else.  Any other error is one of syntax and stands at
a token of the grammar.  Whatever has been read with whatever result, the next
source is read as a new recorder reads it; and a recorder reads as the catalog
does. -/
theorem readNext_reports (r : Recorder) (file source : Bytes) :
    let next := r.readNext file source
    (∀ t ∈ tokenize source, ∀ cause byte, t.content = .fault cause byte →
        next.1 = some (.lexical file t.pos cause byte) ∧
          next.2.catalog =
            { r.catalog with declarations := { r.catalog.declarations with
              sources := r.catalog.declarations.sources.push ⟨file, source⟩ } }) ∧
      ((∀ t ∈ tokenize source, t.kind ≠ .fault) → ∀ error, next.1 = some error →
        ∃ e, error = .syntactic file e ∧
        ∃ t ∈ tokenize source, t.channel = .main ∧ t.pos = e.pos) ∧
      (∀ file' source', next.2.readNext file' source' =
        (idle next.2.catalog).readNext file' source') ∧
      (next.1, next.2.catalog) = r.catalog.readSource file source := by
  intro next
  refine ⟨?_, ?_, fun file' source' => next.2.readNext_eq_idle file' source',
    r.readNext_eq_readSource file source⟩
  · intro t ht cause byte hfault
    have hfound := findSome?_tokenize ht hfault file
    have hnext :
        next = (some (.lexical file t.pos cause byte), r.reset file source) := by
      simp only [next, readNext, hfound]
    rw [hnext]
    exact ⟨rfl, rfl⟩
  · intro hclean error herror
    have hnone := findSome?_tokenize_eq_none hclean file
    cases hsyntax : (Outline.ofSource source (tokenize source)).error with
    | none => simp [next, readNext, hnone, hsyntax] at herror
    | some e =>
        have hreported : some (SourceError.syntactic file e) = some error := by
          rw [← herror]
          simp only [next, readNext, hnone, hsyntax]
        exact ⟨e, (Option.some.inj hreported).symm,
          Outline.pos_error_ofSource hsyntax⟩

/-- A source that ends inside a table constructor and a function body. -/
private def brokenOff : Bytes :=
  utf8 "--! \\group g\n--! @\x7b\nlocal t = \x7b\n--! doc\nx = function() ("

private def interrupted : Recorder :=
  ((idle (.empty .default)).readNext (utf8 "a.lua") brokenOff).2

private def faulty : Bytes := utf8 "--! doc\nx = 1\ny = $\n"

private def nameless : Bytes := utf8 "t = 1\nfunction (a) end\n"

/-- A region, a local variable and an item to refer back to are left over from
the first source.  The second one has a fault, the third one lacks a name. -/
theorem readNext_reports_interrupted :
    (interrupted.reader.regions.length = 1 ∧
      interrupted.isLocal (utf8 "t") = true ∧ interrupted.last = some 1) ∧
      (interrupted.readNext (utf8 "b.lua") faulty).1 =
        some (.lexical (utf8 "b.lua") ⟨18, 1, 3, 5⟩ .invalidCharacter 36) ∧
      (interrupted.readNext (utf8 "b.lua") faulty).2.catalog.docs =
        interrupted.catalog.docs ∧
      (∃ e, (interrupted.readNext (utf8 "c.lua") nameless).1 =
        some (.syntactic (utf8 "c.lua") e) ∧
        ∃ t ∈ tokenize nameless, t.channel = .main ∧ t.pos = e.pos) ∧
      interrupted.readNext (utf8 "c.lua") nameless =
        (idle interrupted.catalog).readNext (utf8 "c.lua") nameless := by
  have hleft : interrupted.reader.regions.length = 1 ∧
      interrupted.isLocal (utf8 "t") = true ∧
      interrupted.last = some 1 := by
    decide +kernel
  obtain ⟨-, -, hagain, -⟩ :=
    readNext_reports (idle (.empty .default)) (utf8 "a.lua") brokenOff
  obtain ⟨hlexical, -⟩ := readNext_reports interrupted (utf8 "b.lua") faulty
  have hlast :
      (⟨.fault .invalidCharacter 36, ⟨18, 1, 3, 5⟩, utf8 "$"⟩ : Token) ∈
        tokenize faulty := by
    decide +kernel
  obtain ⟨herror, hkept⟩ := hlexical _ hlast .invalidCharacter 36 rfl
  have hdocs : (interrupted.readNext (utf8 "b.lua") faulty).2.catalog.docs =
      interrupted.catalog.docs := by
    rw [hkept]
  obtain ⟨-, hsyntactic, -⟩ := readNext_reports interrupted (utf8 "c.lua") nameless
  obtain ⟨error, hfailed⟩ :
      ∃ error, (interrupted.readNext (utf8 "c.lua") nameless).1 = some error :=
    Option.isSome_iff_exists.1 (by decide +kernel)
  obtain ⟨e, rfl, hpos⟩ := hsyntactic (by decide +kernel) error hfailed
  exact ⟨hleft, herror, hdocs, ⟨e, hfailed, hpos⟩, hagain _ _⟩

end Recorder

end LuaGloss

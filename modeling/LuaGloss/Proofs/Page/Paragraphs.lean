import LuaGloss.Page.Description
import LuaGloss.Proofs.Files.Path
import LuaGloss.Proofs.Token.Lexeme

/-!
# Reading descriptions back

A reader of pages looks for the elements with a tag, takes what stands between
the tags, and puts the bytes that entities stand for in their place.  Whatever
bytes the comments are made of, it finds the paragraphs of the brief and of the
detailed description in this way: escaped text holds no `<`, so that tags begin
only where elements do, and the entities are undone one by one.

What the paragraphs of a text are is said by its lines.  They are the lines that
are not empty once the blanks at their ends are dropped, and two of them that
follow each other are in different paragraphs if and only if an empty line
stands between them.
-/

namespace LuaGloss

/-! ## Entities -/

namespace Xml

def entities : List (Bytes × UInt8) :=
  [(utf8 "&amp;", Byte.ampersand), (utf8 "&lt;", Byte.less),
    (utf8 "&gt;", Byte.greater),
    (utf8 "&apos;", Byte.apostrophe), (utf8 "&quot;", Byte.quote)]

/-- A text with all entities replaced. -/
def unescape : Bytes → Bytes
  | [] => []
  | b :: rest =>
    match entities.find? (·.1.isPrefixOf (b :: rest)) with
    | some (entity, byte) => byte :: unescape (rest.drop (entity.length - 1))
    | none => b :: unescape rest
termination_by s => s.length
decreasing_by all_goals simp only [List.length_drop, List.length_cons]; omega

theorem unescape_entity {entity : Bytes} {byte : UInt8}
    (h : (entity, byte) ∈ entities) (rest : Bytes) :
    unescape (entity ++ rest) = byte :: unescape rest := by
  -- no entity is the beginning of another one
  have hfree : ∀ e ∈ entities, ∀ e' ∈ entities, e.1 <+: e'.1 →
      e = e' := by decide +kernel
  have hfound :
      entities.find? (·.1.isPrefixOf (entity ++ rest)) = some (entity, byte) := by
    cases hfind : entities.find? (·.1.isPrefixOf (entity ++ rest)) with
    | none => exact absurd (by simp) (List.find?_eq_none.1 hfind _ h)
    | some e =>
        have hmem := List.mem_of_find?_eq_some hfind
        have hprefix : e.1 <+: entity ++ rest := by
          simpa using List.find?_some hfind
        rcases List.prefix_or_prefix_of_prefix hprefix
          (List.prefix_append entity rest) with hle | hle
        · exact congrArg some (hfree e hmem _ h hle)
        · exact congrArg some (hfree _ h e hmem hle).symm
  have hne : ∀ e ∈ entities, e.1 ≠ [] := by decide +kernel
  obtain ⟨b, more, rfl⟩ := List.exists_cons_of_ne_nil (hne _ h)
  rw [List.cons_append] at hfound ⊢
  rw [unescape, hfound]
  simp

theorem unescape_cons {b : UInt8} (h : b ≠ Byte.ampersand) (rest : Bytes) :
    unescape (b :: rest) = b :: unescape rest := by
  have hfirst : ∀ e ∈ entities, e.1.head? = some Byte.ampersand := by
    decide +kernel
  have hnone : entities.find? (·.1.isPrefixOf (b :: rest)) = none := by
    rw [List.find?_eq_none]
    intro e he hprefix
    obtain ⟨more, hmore⟩ := List.isPrefixOf_iff_prefix.1 hprefix
    have hhead := congrArg List.head? hmore
    rw [List.head?_append, hfirst e he] at hhead
    exact h (Option.some.inj hhead).symm
  rw [unescape, hnone]

theorem escapeByte_cases (b : UInt8) :
    (escapeByte b, b) ∈ entities ∨ escapeByte b = [b] ∧ b ≠ Byte.ampersand ∧
    b ≠ Byte.less := by
  unfold escapeByte
  split
  · exact .inl (by decide)
  · exact .inl (by decide)
  · exact .inl (by decide)
  · exact .inl (by decide)
  · exact .inl (by decide)
  next hampersand hless _ _ _ => exact .inr ⟨rfl, hampersand, hless⟩

/-- What was escaped is read back. -/
theorem unescape_escape (s : Bytes) : unescape (escape s) = s := by
  induction s with
  | nil => simp [escape, unescape]
  | cons b s ih =>
      have happend : escape (b :: s) = escapeByte b ++ escape s := rfl
      rcases escapeByte_cases b with hentity | ⟨hplain, hne, -⟩
      · rw [happend, unescape_entity hentity, ih]
      · rw [happend, hplain, List.singleton_append, unescape_cons hne, ih]

theorem less_not_mem_escape (s : Bytes) : Byte.less ∉ escape s := by
  have hentities : ∀ e ∈ entities, Byte.less ∉ e.1 := by decide +kernel
  intro hmem
  obtain ⟨b, -, hb⟩ := List.mem_flatMap.1 hmem
  rcases escapeByte_cases b with hentity | ⟨hplain, -, hne⟩
  · exact hentities _ hentity hb
  · rw [hplain, List.mem_singleton] at hb
    exact hne hb.symm

end Xml

/-! ## Elements -/

namespace Xml

theorem openTag_eq (tag : Bytes) :
    openTag tag [] = Byte.less :: (tag ++ utf8 ">") := by
  rw [openTag, List.flatMap_nil, List.append_nil, List.append_assoc]
  rfl

theorem closeTag_eq (tag : Bytes) :
    closeTag tag = Byte.less :: Byte.slash :: (tag ++ utf8 ">") := by
  rw [closeTag, List.append_assoc]
  rfl

/-- What stands between the tags of the elements with the given name, from left
to right. -/
def elements (tag s : Bytes) : List Bytes :=
  match _hopen : Bytes.cut (openTag tag []) s with
  | none => []
  | some (_, inside) =>
    match _hclose : Bytes.cut (closeTag tag) inside with
    | none => []
    | some (content, rest) => content :: elements tag rest
termination_by s.length
decreasing_by
  have hinside := congrArg List.length (Bytes.cut_eq_some _hopen).1
  have hrest := congrArg List.length (Bytes.cut_eq_some _hclose).1
  rw [openTag_eq] at hinside
  simp only [List.length_append, List.length_cons] at hinside hrest
  omega

theorem elements_of_passes {tag s : Bytes} (h : Bytes.Passes (openTag tag []) s) :
    elements tag s = [] := by
  have hnone := h.cut_eq_none (by simp [openTag_eq])
  rw [elements]
  split
  next => rfl
  next hsome => simp [hnone] at hsome

def lineOf (tag content : Bytes) : Bytes :=
  openTag tag [] ++ (content ++ (closeTag tag ++ [Byte.lineFeed]))

theorem elements_append_lineOf {tag s content : Bytes}
    (hs : Bytes.Passes (openTag tag []) s)
    (hcontent : Bytes.Passes (closeTag tag) content) (rest : Bytes) :
    elements tag (s ++ (lineOf tag content ++ rest)) = content ::
      elements tag (Byte.lineFeed :: rest) := by
  have hopen :=
    hs.cut_eq (by simp [openTag_eq])
      (content ++ (closeTag tag ++ Byte.lineFeed :: rest))
  have hclose := hcontent.cut_eq (by simp [closeTag_eq]) (Byte.lineFeed :: rest)
  have hline : lineOf tag content ++ rest = openTag tag [] ++
      (content ++ (closeTag tag ++ Byte.lineFeed :: rest)) := by
    simp [lineOf]
  rw [hline, elements]
  split
  next hnone => simp [hopen] at hnone
  next before inside hsome =>
    obtain ⟨rfl, rfl⟩ : s = before ∧
        content ++ (closeTag tag ++ Byte.lineFeed :: rest) = inside := by
      simpa [hopen] using hsome
    split
    next hnone => simp [hclose] at hnone
    next content' rest' hsome =>
      obtain ⟨rfl, rfl⟩ : content = content' ∧
          Byte.lineFeed :: rest = rest' := by simpa [hclose] using hsome
      rfl

/-- Whether the tags of an element are different from what follows `<` in a
separator. -/
def Differs (sep tag : Bytes) : Prop :=
  Byte.less ∉ tag ∧ (¬ sep <+: tag ++ utf8 ">" ∧ ¬ tag ++ utf8 ">" <+: sep) ∧
    ¬ sep <+: Byte.slash :: (tag ++ utf8 ">") ∧
    ¬ Byte.slash :: (tag ++ utf8 ">") <+: sep

instance (sep tag : Bytes) : Decidable (Differs sep tag) :=
  inferInstanceAs (Decidable (_ ∧ _))

theorem passes_lineOf {sep tag content : Bytes} (h : Differs sep tag)
    (hcontent : Bytes.Passes (Byte.less :: sep) content) :
    Bytes.Passes (Byte.less :: sep) (lineOf tag content) := by
  obtain ⟨htag, hopen, hclose⟩ := h
  have hless : Byte.less ∉ tag ++ utf8 ">" := by
    rw [List.mem_append, not_or]
    exact ⟨htag, by decide⟩
  have hslash : Byte.less ∉ Byte.slash :: (tag ++ utf8 ">") := by
    rw [List.mem_cons, not_or]
    exact ⟨by decide, hless⟩
  rw [lineOf, openTag_eq, closeTag_eq]
  exact (Bytes.Passes.of_not_prefix hopen hless).append
    (hcontent.append
      ((Bytes.Passes.of_not_prefix hclose hslash).append
        (.of_not_mem (by decide))))

end Xml

/-! ## Paragraphs -/

theorem Bytes.not_mem_of_mem_splitOn {sep : UInt8} {s piece : Bytes}
    (h : piece ∈ splitOn sep s) : sep ∉ piece := by
  induction s generalizing piece with
  | nil => simp_all [splitOn]
  | cons b rest ih =>
      rw [splitOn] at h
      split at h
      next =>
        rcases List.mem_cons.1 h with rfl | h
        · simp
        · exact ih h
      next hne =>
        split at h
        next hnil => exact absurd hnil (splitOn_ne_nil sep rest)
        next first pieces heq =>
          rcases List.mem_cons.1 h with rfl | h
          · rw [List.mem_cons, not_or]
            exact ⟨Ne.symm hne, ih (by simp [heq])⟩
          · exact ih (by simp [heq, h])

theorem Bytes.splitOn_join {sep : UInt8} {line : Bytes} {lines : List Bytes}
    (h : ∀ l ∈ line :: lines, sep ∉ l) :
    splitOn sep (join [sep] (line :: lines)) = line :: lines := by
  induction lines generalizing line with
  | nil => simpa [join] using splitOn_of_not_mem (h line (by simp))
  | cons next lines ih =>
      obtain ⟨hline, hmore⟩ := List.forall_mem_cons.1 h
      have hjoin : join [sep] (line :: next :: lines) = line ++ sep ::
          join [sep] (next :: lines) := by
        simp [join, List.intercalate]
      rw [hjoin, splitOn_append, splitOn_of_not_mem hline, ih hmore]
      rfl

namespace Page

open LuaGloss.Bytes (splitOn)

theorem lineRuns_ne_nil (lines : List Bytes) : lineRuns lines ≠ [] := by
  cases lines with
  | nil => simp [lineRuns]
  | cons line lines =>
      rw [lineRuns]
      split
      · simp
      · split <;> simp

theorem lineRuns_cons {line : Bytes} (h : line ≠ []) {lines run : List Bytes}
    {runs : List (List Bytes)} (hruns : lineRuns lines = run :: runs) :
    lineRuns (line :: lines) = (line :: run) :: runs := by
  rw [lineRuns, if_neg (by simpa using h), hruns]

theorem flatten_lineRuns (lines : List Bytes) :
    (lineRuns lines).flatten = lines.filter (!·.isEmpty) := by
  induction lines with
  | nil => rfl
  | cons line lines ih =>
      by_cases hline : line = []
      · simp [lineRuns, hline, ih]
      · obtain ⟨run, runs, hruns⟩ :=
          List.exists_cons_of_ne_nil (lineRuns_ne_nil lines)
        rw [lineRuns_cons hline hruns,
          List.filter_cons_of_pos (by simpa using hline), ← ih, hruns]
        rfl

theorem lineRuns_append_empty (lines more : List Bytes) :
    lineRuns (lines ++ [] :: more) = lineRuns lines ++ lineRuns more := by
  induction lines with
  | nil => simp [lineRuns]
  | cons line lines ih =>
      by_cases hline : line = []
      · simp [lineRuns, hline, ih]
      · obtain ⟨run, runs, hruns⟩ :=
          List.exists_cons_of_ne_nil (lineRuns_ne_nil lines)
        have happend : lineRuns (lines ++ [] :: more) = run ::
            (runs ++ lineRuns more) := by simp [ih, hruns]
        rw [List.cons_append, lineRuns_cons hline happend,
          lineRuns_cons hline hruns]
        rfl

theorem lineRuns_append_line {line : Bytes} (h : line ≠ []) (lines : List Bytes)
    {more run : List Bytes} {runs : List (List Bytes)}
    (hruns : lineRuns more = run :: runs) :
    ∃ earlier start, lineRuns (lines ++ line :: more) = earlier ++
      (start ++ line :: run) :: runs ∧
      earlier.flatten ++ start = lines.filter (!·.isEmpty) := by
  induction lines with
  | nil => exact ⟨[], [], by simpa using lineRuns_cons h hruns, rfl⟩
  | cons first lines ih =>
      obtain ⟨earlier, start, heq, hflat⟩ := ih
      by_cases hfirst : first = []
      · exact ⟨[] :: earlier,
          start, by simp [lineRuns, hfirst, heq], by simp [hfirst, hflat]⟩
      · have hfilter : (first :: lines).filter (!·.isEmpty) = first ::
            lines.filter (!·.isEmpty) :=
          List.filter_cons_of_pos (by simpa using hfirst)
        rw [hfilter, ← hflat, List.cons_append]
        cases earlier with
        | nil => exact ⟨[], first :: start, lineRuns_cons hfirst heq, rfl⟩
        | cons run' earlier =>
            exact ⟨(first :: run') :: earlier, start,
              lineRuns_cons hfirst heq, rfl⟩

variable (text : Bytes)

def linesOf : List Bytes :=
  (splitOn Byte.lineFeed text).map (Bytes.trimRight isLineEnd)

/-- The texts `ps` are the paragraphs of a text: nothing but its lines in their
order, except for empty ones, with a break wherever there are empty lines
between two others and nowhere else. -/
structure AreParagraphs (text : Bytes) (ps : List Bytes) : Prop where
  ne_nil : ∀ p ∈ ps, p ≠ []
  line_ne_nil : ∀ p ∈ ps, [] ∉ splitOn Byte.lineFeed p
  lines_eq : ps.flatMap (splitOn Byte.lineFeed) =
    (linesOf text).filter (!·.isEmpty)
  break_iff {before gap after : List Bytes} {line next : Bytes} :
    linesOf text = before ++ line :: (gap ++ next :: after) → line ≠ [] →
      next ≠ [] → (∀ l ∈ gap, l = []) →
      ((∃ qs rs, ps = qs ++ rs ∧ qs.flatMap (splitOn Byte.lineFeed) =
        (before ++ [line]).filter (!·.isEmpty)) ↔ gap ≠ [])

/-- The paragraphs of a text are made of its runs of lines. -/
theorem map_splitOn_paragraphs :
    (paragraphs text).map (splitOn Byte.lineFeed) =
      (lineRuns (linesOf text)).filter (!·.isEmpty) := by
  have hline : ∀ l ∈ linesOf text, Byte.lineFeed ∉ l := by
    intro l hl hmem
    obtain ⟨piece, hpiece, rfl⟩ := List.mem_map.1 hl
    apply Bytes.not_mem_of_mem_splitOn hpiece
    rw [Bytes.trimRight, List.mem_reverse] at hmem
    exact List.mem_reverse.1 ((List.dropWhile_sublist _).subset hmem)
  have hrun (run : List Bytes)
      (h : run ∈ (lineRuns (linesOf text)).filter (!·.isEmpty)) :
      splitOn Byte.lineFeed (Bytes.join [Byte.lineFeed] run) = run := by
    obtain ⟨hmem, hne⟩ := List.mem_filter.1 h
    obtain ⟨line, lines, rfl⟩ :=
      List.exists_cons_of_ne_nil (show run ≠ [] by simpa using hne)
    apply Bytes.splitOn_join
    intro l hl
    have hflat := List.mem_flatten_of_mem hmem hl
    rw [flatten_lineRuns] at hflat
    exact hline l (List.mem_of_mem_filter hflat)
  unfold paragraphs
  rw [List.map_map]
  exact (List.map_congr_left hrun).trans (List.map_id _)

theorem areParagraphs_paragraphs : AreParagraphs text (paragraphs text) := by
  have hruns := map_splitOn_paragraphs text
  have hflat (runs : List (List Bytes)) :
      (runs.filter (!·.isEmpty)).flatten = runs.flatten :=
    List.flatten_filter_not_isEmpty
  have hlines : (paragraphs text).flatMap (splitOn Byte.lineFeed) =
      (linesOf text).filter (!·.isEmpty) := by
    rw [List.flatMap_def, hruns, hflat, flatten_lineRuns]
  have hempty : ∀ p ∈ paragraphs text, [] ∉ splitOn Byte.lineFeed p := by
    intro p hp hmem
    have hfilter := List.mem_flatMap_of_mem hp hmem
    simp [hlines] at hfilter
  refine ⟨fun p hp hnil => hempty p hp (by simp [hnil, splitOn]),
    hempty, hlines, ?_⟩
  intro before gap after line next heq hline hnext hgap
  constructor
  · -- without a gap the two lines stand in one run, which no cut between
    -- paragraphs can divide
    rintro ⟨qs, rs, hps, hqs⟩ rfl
    obtain ⟨run, runs, hafter⟩ :=
      List.exists_cons_of_ne_nil (lineRuns_ne_nil after)
    obtain ⟨earlier, start, hall, hstart⟩ :=
      lineRuns_append_line hline before (lineRuns_cons hnext hafter)
    rw [heq, List.nil_append, hall, hps, List.map_append, List.filter_append,
      List.filter_cons_of_pos (by simp)] at hruns
    have hlength := congrArg List.length hqs
    have hone : [line].filter (!·.isEmpty) = [line] := by simp [hline]
    rw [List.filter_append, hone, ← hstart, ← hflat, List.flatMap_def] at hlength
    simp only [List.length_append, List.length_singleton] at hlength
    rcases List.append_eq_append_iff.1 hruns with
      ⟨more, hmore, -⟩ | ⟨more, hmore, hrest⟩
    · rw [hmore, List.flatten_append, List.length_append] at hlength
      omega
    · rw [hmore, List.flatten_append, List.length_append] at hlength
      cases more with
      | nil =>
          rw [List.flatten_nil, List.length_nil] at hlength
          omega
      | cons run' more =>
          obtain ⟨rfl, -⟩ := List.cons.inj hrest
          simp only [List.flatten_cons, List.length_append,
            List.length_cons] at hlength
          omega
  · -- the first empty line of the gap ends the run of the line before it
    intro hne
    obtain ⟨empty, gap, rfl⟩ := List.exists_cons_of_ne_nil hne
    obtain rfl := hgap empty (by simp)
    have hcut : linesOf text = (before ++ [line]) ++ [] ::
        (gap ++ next :: after) := by simpa using heq
    rw [hcut, lineRuns_append_empty, List.filter_append] at hruns
    obtain ⟨qs, rs, hps, hqs, -⟩ := List.map_eq_append_iff.1 hruns
    exact ⟨qs, rs, hps, by rw [List.flatMap_def, hqs, hflat, flatten_lineRuns]⟩

/-! ## Descriptions -/

open LuaGloss.Xml

/-- What stands between the tags of a description. -/
def written : Bytes := Byte.lineFeed :: renderAll (paragraphElements text)

theorem renderAll_line (tag : String) (content : Bytes) :
    renderAll (line tag [] content) = lineOf (utf8 tag) (escape content) := by
  simp only [line, renderAll, render, lineOf, lineBreak, List.append_nil,
    List.append_assoc]
  rfl

theorem renderAll_block (tag : String) (text : Bytes) :
    renderAll (block tag [] (paragraphElements text)) = lineOf (utf8 tag)
      (written text) := by
  simp only [block, renderAll, render, lineOf, written, lineBreak,
    List.append_nil, List.append_assoc]
  rfl

theorem renderAll_append (xs ys : List Xml) :
    renderAll (xs ++ ys) = renderAll xs ++ renderAll ys := by
  induction xs with
  | nil => simp [renderAll]
  | cons x xs ih => simp [renderAll, ih]

theorem renderAll_paragraphElements :
    renderAll (paragraphElements text) = (paragraphs text).flatMap fun p =>
      lineOf (utf8 "para") (escape p) := by
  unfold paragraphElements
  induction paragraphs text with
  | nil => simp [renderAll]
  | cons p ps ih =>
      rw [List.flatMap_cons, List.flatMap_cons, renderAll_append,
        renderAll_line, ih]

theorem passes_written {sep : Bytes} (h : Differs sep (utf8 "para"))
    (text : Bytes) : Bytes.Passes (Byte.less :: sep) (written text) := by
  have hps (ps : List Bytes) :
      Bytes.Passes (Byte.less :: sep) (ps.flatMap fun p =>
        lineOf (utf8 "para") (escape p)) := by
    induction ps with
    | nil => exact .nil _
    | cons p ps ih =>
        exact (passes_lineOf h (.of_not_mem (less_not_mem_escape p))).append ih
  rw [written, renderAll_paragraphElements]
  exact (Bytes.Passes.of_not_mem (s := [Byte.lineFeed]) (by decide)).append (hps _)

/-- The paragraphs of a text are read back. -/
theorem elements_written :
    (elements (utf8 "para") (written text)).map unescape = paragraphs text := by
  have hbreak : Bytes.Passes (openTag (utf8 "para") []) [Byte.lineFeed] := by
    rw [openTag_eq]
    exact .of_not_mem (by decide)
  have hescape (p : Bytes) : Bytes.Passes (closeTag (utf8 "para")) (escape p) := by
    rw [closeTag_eq]
    exact .of_not_mem (less_not_mem_escape p)
  rw [written, renderAll_paragraphElements]
  induction paragraphs text with
  | nil => rw [List.flatMap_nil, elements_of_passes hbreak, List.map_nil]
  | cons p ps ih =>
      have hread :=
        elements_append_lineOf hbreak (hescape p) (ps.flatMap fun p =>
          lineOf (utf8 "para") (escape p))
      rw [List.flatMap_cons, ← List.singleton_append, hread, List.map_cons,
        unescape_escape, ih]

/-- The paragraphs of both descriptions can be read off what is written,
whatever bytes they are made of. -/
theorem description_read_back {c : Catalog} {id : BlockId} {b : Block}
    (hblock : c.docs.block? id = some b) (hsee : b.seeAlso = []) :
    ∃ brief detailed,
      elements (utf8 "briefdescription")
        (renderAll (description id c).1) = [brief] ∧
      elements (utf8 "detaileddescription") (renderAll (description id c).1) =
        [detailed] ∧
      AreParagraphs b.brief ((elements (utf8 "para") brief).map unescape) ∧
      AreParagraphs b.detailed
        ((elements (utf8 "para") detailed).map unescape) := by
  have hdescription : (description id c).1 =
      block "briefdescription" [] (paragraphElements b.brief)
      ++ block "detaileddescription" [] (paragraphElements b.detailed ++ []) := by
    have hget : (get : CatalogM Catalog) c = (c, c) := rfl
    simp only [description, bind, StateT.bind, hget, hblock, hsee]
    rfl
  rw [hdescription, List.append_nil, renderAll_append, renderAll_block,
    renderAll_block]
  refine ⟨written b.brief, written b.detailed, ?_, ?_, ?_, ?_⟩
  · have hrest :
        Bytes.Passes (openTag (utf8 "briefdescription") []) (Byte.lineFeed ::
        lineOf (utf8 "detaileddescription") (written b.detailed)) := by
      rw [openTag_eq]
      exact (Bytes.Passes.of_not_mem (s := [Byte.lineFeed]) (by decide)).append
        (passes_lineOf (by decide +kernel)
          (passes_written (by decide +kernel) b.detailed))
    have hcontent :
        Bytes.Passes (closeTag (utf8 "briefdescription")) (written b.brief) := by
      rw [closeTag_eq]
      exact passes_written (by decide +kernel) b.brief
    rw [← List.nil_append (_ ++ _), elements_append_lineOf (.nil _) hcontent,
      elements_of_passes hrest]
  · have hfirst : Bytes.Passes (openTag (utf8 "detaileddescription") [])
        (lineOf (utf8 "briefdescription") (written b.brief)) := by
      rw [openTag_eq]
      exact passes_lineOf (by decide +kernel)
        (passes_written (by decide +kernel) b.brief)
    have hlast : Bytes.Passes (openTag (utf8 "detaileddescription") [])
        [Byte.lineFeed] := by
      rw [openTag_eq]
      exact .of_not_mem (by decide)
    have hcontent : Bytes.Passes (closeTag (utf8 "detaileddescription"))
        (written b.detailed) := by
      rw [closeTag_eq]
      exact passes_written (by decide +kernel) b.detailed
    rw [← List.append_nil (lineOf (utf8 "detaileddescription") _),
      elements_append_lineOf hfirst hcontent, elements_of_passes hlast]
  · rw [elements_written]
    exact areParagraphs_paragraphs b.brief
  · rw [elements_written]
    exact areParagraphs_paragraphs b.detailed

private def markedUp : Block :=
  { kind := .normal, file := [], pos := .none,
    brief := utf8 "1 < 2 &amp;\t\r\n \n</para><para>'x'",
    detailed := utf8 "\n\n</detaileddescription>\n\"y\" & z\n\n" }

theorem description_read_back_markedUp :
    let c : Catalog := ⟨.empty, .empty, { Docs.empty with blocks := #[markedUp] }⟩
    c.docs.block? 0 = some markedUp ∧ markedUp.seeAlso = [] ∧
      ∃ brief detailed,
        elements (utf8 "briefdescription")
          (renderAll (description 0 c).1) = [brief] ∧
        elements (utf8 "detaileddescription") (renderAll (description 0 c).1) =
          [detailed] ∧
        AreParagraphs markedUp.brief
          ((elements (utf8 "para") brief).map unescape) ∧
        AreParagraphs markedUp.detailed
          ((elements (utf8 "para") detailed).map unescape) :=
  ⟨rfl, rfl, description_read_back rfl rfl⟩

end Page

end LuaGloss

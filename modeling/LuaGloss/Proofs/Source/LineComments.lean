import LuaGloss.Catalog.Source
import LuaGloss.Proofs.Comment.Prose
import LuaGloss.Proofs.Token.Delimiting

/-!
# Lines of comment before a declaration

Structured comments on consecutive lines make one block, and this block
documents the declaration that follows them.  Its detailed description has the
lines one below the other, from the first one on that is not blank.
-/

namespace LuaGloss

def commentLine (text : Bytes) : Bytes := utf8 "--!" ++ text ++ [Byte.lineFeed]

def commentedSource (texts : List Bytes) : Bytes :=
  texts.flatMap commentLine ++ utf8 "x = 1"

/-- Whether the text can follow the mark of a structured comment that takes one
line, points ahead and is prose. -/
structure Bytes.IsCommentText (vocabulary : Vocabulary) (text : Bytes) : Prop where
  oneLine : Byte.lineFeed ∉ text
  noReturn : text.getLast? ≠ some Byte.carriageReturn
  ahead : text.head? ≠ some Byte.less
  prose : text.IsProse vocabulary

def Bytes.shownLine (text : Bytes) : Bytes :=
  if text.isBlank then [] else text.trimLeft Byte.isIndent

/-! ## The tokens -/

def commentTokens (place : Place) : List Bytes → List Token
  | [] => []
  | text :: texts =>
    ⟨.comment .line false text, place.pos (3 + text.length), utf8 "--!" ++ text⟩ ::
      commentTokens (place.after (commentLine text)) texts

def declarationTokens (place : Place) : List Token :=
  [⟨.name, place.pos 1, utf8 "x"⟩,
    ⟨.symbol .assign, (place.after (utf8 "x ")).pos 1, utf8 "="⟩,
    ⟨.number (.ofNat 1), (place.after (utf8 "x = ")).pos 1, utf8 "1"⟩,
    ⟨.endOfInput, (place.after (utf8 "x = 1")).pos 0, []⟩]

namespace Scanner

theorem lineComment_ahead {text : Bytes}
    (hreturn : text.getLast? ≠ some Byte.carriageReturn)
    (hahead : text.head? ≠ some Byte.less) :
    Front.lineComment text =
      ⟨some (.comment .line false text), 2 + text.length⟩ := by
  unfold Front.lineComment
  dsimp only
  rw [if_neg hreturn, Front.comment]
  · rw [Front.ofContent, Nat.add_comm 3, Nat.add_comm 2]
    rfl
  · rintro body rfl
    exact hahead rfl

theorem recognize_commentLine {vocabulary : Vocabulary} {text : Bytes}
    (h : text.IsCommentText vocabulary) (rest : Bytes) :
    Front.recognize Byte.dash
      (Byte.dash :: Byte.bang :: (text ++ Byte.lineFeed :: rest)) =
      ⟨some (.comment .line false text), 2 + text.length⟩ := by
  have hline :
      (text ++ Byte.lineFeed :: rest).takeWhile (· != Byte.lineFeed) = text := by
    rw [List.takeWhile_append_of_pos, List.takeWhile_cons_of_neg (by simp),
      List.append_nil]
    intro b hb
    exact bne_iff_ne.2 fun heq => h.oneLine (heq ▸ hb)
  have hfront :
      Front.recognize Byte.dash
        (Byte.dash :: Byte.bang :: (text ++ Byte.lineFeed :: rest)) =
      Front.lineComment
        ((text ++ Byte.lineFeed :: rest).takeWhile (· != Byte.lineFeed)) := rfl
  rw [hfront, hline, lineComment_ahead h.noReturn h.ahead]

theorem tokensOn_declaration {s : Scanner} {place : Place}
    (hs : s.skipBlanks = ⟨utf8 "x = 1", place⟩) :
    (s.tokensOn allChannels).1 = declarationTokens place := by
  have hname :
      s.next = (⟨.name, place.pos 1, utf8 "x"⟩,
        ⟨utf8 " = 1", place.after (utf8 "x")⟩) := by
    rw [next_of_content (b := 120) (by rw [hs]; rfl) rfl, hs]
    rfl
  have hsign : Scanner.next ⟨utf8 " = 1", place.after (utf8 "x")⟩ =
      (⟨.symbol .assign, (place.after (utf8 "x ")).pos 1, utf8 "="⟩,
        ⟨utf8 " 1", place.after (utf8 "x =")⟩) := by
    rw [next_of_content (b := 61) rfl rfl]
    rfl
  have hnumber : Scanner.next ⟨utf8 " 1", place.after (utf8 "x =")⟩ =
      (⟨.number (.ofNat 1), (place.after (utf8 "x = ")).pos 1, utf8 "1"⟩,
        ⟨[], place.after (utf8 "x = 1")⟩) := by
    have hone : (Front.recognize 49 []).content =
        some (.number (.ofNat 1)) := by decide +kernel
    rw [next_of_content rfl hone]
    rfl
  have hend : Scanner.next ⟨[], place.after (utf8 "x = 1")⟩ =
      (⟨.endOfInput, (place.after (utf8 "x = 1")).pos 0, []⟩,
        ⟨[], place.after (utf8 "x = 1")⟩) := by
    rw [next]
    rfl
  rw [tokensOn_of_not_isLast (by rw [hname]; rfl), hname,
    tokensOn_of_not_isLast (by rw [hsign]; rfl), hsign,
    tokensOn_of_not_isLast (by rw [hnumber]; rfl), hnumber,
      tokensOn_of_isLast (by rw [hend]; rfl), hend]
  rfl

theorem takeWhile_commentedSource (texts : List Bytes) :
    (commentedSource texts).takeWhile Byte.isBlank = [] := by
  cases texts <;> rfl

theorem tokensOn_commentedSource {vocabulary : Vocabulary} {texts : List Bytes}
    (htexts : ∀ text ∈ texts, text.IsCommentText vocabulary) {s : Scanner}
    {place : Place} (hs : s.skipBlanks = ⟨commentedSource texts, place⟩) :
    (s.tokensOn allChannels).1 =
      commentTokens place texts ++
        declarationTokens (place.after (texts.flatMap commentLine)) := by
  induction texts generalizing s place with
  | nil => exact tokensOn_declaration hs
  | cons text texts ih =>
      obtain ⟨htext, htexts⟩ := List.forall_mem_cons.1 htexts
      have hrest : s.skipBlanks.rest = Byte.dash :: (Byte.dash :: Byte.bang ::
          (text ++ Byte.lineFeed :: commentedSource texts)) := by
        rw [hs]
        simp only [commentedSource, commentLine, List.flatMap_cons,
          List.append_assoc]
        rfl
      have hsplit : s.skipBlanks.rest = (utf8 "--!" ++ text) ++ Byte.lineFeed ::
          commentedSource texts := by
        rw [hrest, List.append_assoc]
        rfl
      have hlength : (utf8 "--!" ++ text).length = 3 + text.length :=
        List.length_append
      have hmore : 2 + text.length + 1 = 3 + text.length := by omega
      have hfront := recognize_commentLine htext (commentedSource texts)
      have hplace : s.skipBlanks.place = place := by rw [hs]
      have hnext :
          s.next = (⟨.comment .line false text, place.pos (3 + text.length),
            utf8 "--!" ++ text⟩,
          ⟨Byte.lineFeed :: commentedSource texts,
            place.after (utf8 "--!" ++ text)⟩) := by
        rw [next_of_content hrest (by rw [hfront]), hfront, hmore, token,
          advance, hplace, hsplit, ← hlength, List.take_left, List.drop_left]
      rw [tokensOn_of_not_isLast (by rw [hnext]; rfl), hnext]
      have hskip :
          skipBlanks ⟨Byte.lineFeed :: commentedSource texts,
            place.after (utf8 "--!" ++ text)⟩ =
          ⟨commentedSource texts, place.after (commentLine text)⟩ := by
        have hblanks : (Byte.lineFeed :: commentedSource texts).takeWhile
            Byte.isBlank = [Byte.lineFeed] := by
          rw [List.takeWhile_cons_of_pos (by decide), takeWhile_commentedSource]
        rw [skipBlanks, hblanks, commentLine,
          Place.after_append place (utf8 "--!" ++ text)]
        rfl
      rw [ih htexts hskip, List.flatMap_cons,
        Place.after_append place (commentLine text)]
      rfl

end Scanner

theorem tokenize_commentedSource {vocabulary : Vocabulary} {texts : List Bytes}
    (htexts : ∀ text ∈ texts, text.IsCommentText vocabulary) :
    tokenize (commentedSource texts) =
      commentTokens .start texts ++
        declarationTokens (Place.start.after (texts.flatMap commentLine)) := by
  have hnot : (utf8 "#!").isPrefixOf (commentedSource texts) = false := by
    cases texts <;> rfl
  have hstart : (Scanner.ofSource (commentedSource texts)).skipBlanks =
      ⟨commentedSource texts, .start⟩ := by
    rw [Scanner.ofSource, if_neg (by simp [hnot]), Scanner.skipBlanks,
      Scanner.takeWhile_commentedSource]
    rfl
  exact Scanner.tokensOn_commentedSource htexts hstart

theorem content_of_mem_commentTokens {place : Place} {texts : List Bytes}
    {t : Token} (h : t ∈ commentTokens place texts) :
    ∃ text, t.content = .comment .line false text := by
  induction texts generalizing place with
  | nil => cases h
  | cons text texts ih =>
      rcases List.mem_cons.1 h with rfl | hmore
      · exact ⟨text, rfl⟩
      · exact ih hmore

theorem isComment_of_mem_commentTokens {place : Place} {texts : List Bytes}
    {t : Token} (h : t ∈ commentTokens place texts) :
    t.kind.isComment = true := by
  obtain ⟨text, hcontent⟩ := content_of_mem_commentTokens h
  rw [Token.kind, hcontent]
  rfl

theorem CommentRuns.collect_append {comments : List Token}
    (hcomments : ∀ t ∈ comments, t.kind.isComment = true) {t : Token}
    (ht : t.kind.isComment = false) (pending ts : List Token)
    (hne : pending ++ comments ≠ []) :
    collect pending (comments ++ t :: ts) =
      (t.pos.offset, pending ++ comments) :: collect [] ts := by
  induction comments generalizing pending with
  | nil =>
      rw [List.append_nil] at hne ⊢
      rw [List.nil_append, collect, if_neg (by simp [ht]),
        if_neg (by simpa using hne)]
  | cons comment comments ih =>
      obtain ⟨hcomment, hcomments⟩ := List.forall_mem_cons.1 hcomments
      rw [List.cons_append, collect, if_pos hcomment, ih hcomments _ (by simp)]
      simp

theorem runs_commentedSource {place : Place} {texts : List Bytes}
    (hne : texts ≠ []) (finish : Place) :
    CommentRuns.ofTokens (commentTokens place texts ++ declarationTokens finish) =
      [(finish.offset, commentTokens place texts)] := by
  obtain ⟨text, texts, rfl⟩ := List.exists_cons_of_ne_nil hne
  exact CommentRuns.collect_append (fun t ht =>
    isComment_of_mem_commentTokens ht) rfl [] _ (by simp [commentTokens])

/-- What is left of the declaration in an outline, from the statement on. -/
def declarationNodes (source : Bytes) (place : Place) : List Node :=
  let name := place.pos 1
  let number := (place.after (utf8 "x = ")).pos 1
  [.statement
    [.assign [⟨[utf8 "x"], name, .none,
      ((Value.ofToken .reference source name).extend name).text⟩]
      [.value []] (some [(Value.ofToken .constant source number).extend number])],
    .comments ((place.after (utf8 "x = 1")).pos 0).offset]

theorem ofTokens_declaration (source : Bytes) (place : Place) :
    Outline.ofTokens source ((place.after (utf8 "x = 1")).pos 0)
      (declarationTokens place).dropLast =
      ⟨.comments place.offset :: declarationNodes source place, none⟩ := rfl

theorem filter_commentedSource (place finish : Place) (texts : List Bytes) :
    (commentTokens place texts ++ declarationTokens finish).filter
      (!·.kind.isComment) = declarationTokens finish := by
  have hcomments : (commentTokens place texts).filter (!·.kind.isComment) = [] :=
    List.filter_eq_nil_iff.2 fun t ht => by
    simp [isComment_of_mem_commentTokens ht]
  rw [List.filter_append, hcomments]
  rfl

theorem findSome?_commentedSource (file : Bytes) (place finish : Place)
    (texts : List Bytes) :
    (commentTokens place texts ++ declarationTokens finish).findSome?
      (SourceError.ofToken? file) = none := by
  rw [List.findSome?_append, Option.or_eq_none_iff]
  refine ⟨List.findSome?_eq_none_iff.2 fun t ht => ?_, rfl⟩
  obtain ⟨text, hcontent⟩ := content_of_mem_commentTokens ht
  rw [SourceError.ofToken?, hcontent]

/-! ## The block -/

def Block.withComments (b : Block) (texts : List Bytes) : Block :=
  texts.foldl (fun b text => Reading.withComment text b) b

namespace CommentReader

/-- A comment that continues another goes into the same block. -/
theorem readAhead_continued {r : CommentReader} {place : WritePlace}
    {text : Bytes} (file : Bytes) (pos : Pos) (hresume : r.resume = some place)
    (hpart : place.part = .detailed)
    (hprose : text.IsProse r.catalog.vocabulary) :
    r.readAhead text file pos true =
      r.mapCatalog (·.modifyBlock place.block (Reading.withComment text)) := by
  have hread := Reading.read_prose (s := ⟨r, file, pos, place⟩) hprose hpart
  unfold readAhead
  rw [if_pos rfl, hresume]
  dsimp only
  rw [hread]
  dsimp only [Reading.modifyBlock, Reading.mapCatalog, mapCatalog]
  rw [hresume]

end CommentReader

namespace Recorder

theorem line_after_commentLine {text : Bytes} (h : Byte.lineFeed ∉ text)
    (place : Place) :
    (place.after (commentLine text)).line = place.line + 1 := by
  rw [Place.line_after, commentLine, List.count_append, List.count_append,
    List.count_eq_zero_of_not_mem h]
  rfl

theorem readComments_continued {texts : List Bytes} {r : Recorder}
    {target : WritePlace} {previous : Token} {place : Place}
    (htexts : ∀ text ∈ texts, text.IsCommentText r.catalog.vocabulary)
    (hresume : r.reader.resume = some target) (hpart : target.part = .detailed)
    (hahead : previous.isRetroactive = false)
    (hkind : previous.kind = .comment .line)
    (hline : place.line = previous.pos.line + 1) :
    r.readComments (some previous) (commentTokens place texts) =
      r.mapCatalog (·.modifyBlock target.block (·.withComments texts)) := by
  induction texts generalizing r previous place with
  | nil =>
      exact congrArg (fun docs => r.mapCatalog fun c => { c with docs })
        (r.catalog.docs.modifyBlock_self target.block).symm
  | cons text texts ih =>
      obtain ⟨htext, htexts⟩ := List.forall_mem_cons.1 htexts
      let t : Token :=
        ⟨.comment .line false text, place.pos (3 + text.length),
          utf8 "--!" ++ text⟩
      have hcontinues : continues (some previous) t = true := by
        have hkind' : t.kind = .comment .line := rfl
        have hline' : t.pos.line = previous.pos.line + 1 := hline
        simp [continues, hahead, hkind, hkind', hline']
      have hread : r.readComment (some previous) t =
          r.mapCatalog
            (·.modifyBlock target.block (Reading.withComment text)) := by
        have hreader :=
          CommentReader.readAhead_continued r.file t.pos hresume hpart htext.prose
        rw [← hcontinues] at hreader
        exact congrArg (fun reader => { r with reader }) hreader
      have hmore : (r.readComment (some previous) t).readComments (some t)
          (commentTokens (place.after (commentLine text)) texts) =
            (r.readComment (some previous) t).mapCatalog
              (·.modifyBlock target.block (·.withComments texts)) :=
        ih (by rw [hread]; exact htexts) (by rw [hread]; exact hresume) rfl rfl
          (line_after_commentLine htext.oneLine place)
      rw [hread] at hmore
      rw [commentTokens, readComments, hread, hmore]
      exact congrArg (fun docs => r.mapCatalog fun c => { c with docs })
        (r.catalog.docs.modifyBlock_modifyBlock target.block _ _)

end Recorder

/-! ## Descriptions of lines -/

namespace Bytes

theorem isBlank_cons_of_isIndent {b : UInt8} (h : Byte.isIndent b = true)
    (rest : Bytes) : isBlank (b :: rest) = isBlank rest := by
  rcases (Bool.or_eq_true_iff.1 h) with hb | hb <;> rw [eq_of_beq hb] <;> rfl

theorem isBlank_of_forall {text : Bytes}
    (h : ∀ b ∈ text, Byte.isIndent b = true) : text.isBlank = true := by
  induction text with
  | nil => rfl
  | cons b rest ih =>
      obtain ⟨hb, hrest⟩ := List.forall_mem_cons.1 h
      rw [isBlank_cons_of_isIndent hb, ih hrest]

theorem isEmpty_shownLine (text : Bytes) :
    text.shownLine.isEmpty = text.isBlank := by
  unfold shownLine
  split
  next hblank => rw [hblank, List.isEmpty_nil]
  next hblank =>
    have hword : text.trimLeft Byte.isIndent ≠ [] := by
      intro hnone
      have hsplit :=
        List.takeWhile_append_dropWhile (p := Byte.isIndent) (l := text)
      rw [trimLeft] at hnone
      rw [hnone, List.append_nil] at hsplit
      exact hblank
        (isBlank_of_forall (hsplit ▸ (CommentToken.takeWhile_isIndent text).1))
    rw [Bool.not_eq_true] at hblank
    rw [hblank, List.isEmpty_eq_false_iff.2 hword]

theorem dropWhile_map_shownLine (texts : List Bytes) :
    (texts.map shownLine).dropWhile (·.isEmpty) =
      (texts.dropWhile (·.isBlank)).map shownLine := by
  rw [List.dropWhile_map]
  congr 2
  funext text
  exact isEmpty_shownLine text

end Bytes

namespace Reading

theorem withProse_line {text : Bytes} (h : Byte.lineFeed ∉ text)
    (description : Bytes) :
    withProse description text = Bytes.addedLine description text.shownLine := by
  unfold withProse Bytes.shownLine
  split
  · exact appendLine_nil description
  · have hlines : Bytes.lines text = [text] := by
      have hsplit :=
        Bytes.lines_append (CommentToken.Unbroken.of_lineFeed_notMem h) rfl
      simpa using hsplit
    rw [described_eq_addedLines (CommentToken.lexes_tokenize text) hlines
      (by simp) fun _ => rfl, Bytes.addedLines]
    cases description with
    | nil => rfl
    | cons b description =>
        have hbreak :
            (appendLine (b :: description) []).getLastD Byte.lineFeed =
              Byte.lineFeed :=
          List.getLastD_concat
        rw [appendText, if_pos hbreak]
        simp [appendLine, Bytes.addedLine]

end Reading

namespace Block

theorem withComments_eq {texts : List Bytes}
    (htexts : ∀ text ∈ texts, Byte.lineFeed ∉ text) (b : Block) :
    b.withComments texts =
      { b with
        source := texts.foldl Bytes.addedLine b.source
        detailed :=
  (texts.map Bytes.shownLine).foldl Bytes.addedLine b.detailed } := by
  induction texts generalizing b with
  | nil => rfl
  | cons text texts ih =>
      obtain ⟨htext, htexts⟩ := List.forall_mem_cons.1 htexts
      have hcomment : Reading.withComment text b =
          { b with
            source := Bytes.addedLine b.source text
            detailed := Bytes.addedLine b.detailed text.shownLine } := by
        rw [Reading.withComment, Reading.withProse_line htext]
        cases hsource : b.source <;> rfl
      have hmore := ih htexts (Reading.withComment text b)
      rw [hcomment] at hmore
      exact (congrArg (withComments · texts) hcomment).trans hmore

/-- The block that comments on consecutive lines make, with the position of the
first of them. -/
theorem withComments_new {texts : List Bytes}
    (htexts : ∀ text ∈ texts, Byte.lineFeed ∉ text) (file : Bytes) (pos : Pos) :
    withComments { kind := .normal, file, pos } texts =
      { kind := .normal, file, pos, source := Bytes.stacked texts,
        detailed := Bytes.join [Byte.lineFeed]
          ((texts.dropWhile (·.isBlank)).map Bytes.shownLine) } := by
  rw [withComments_eq htexts]
  dsimp only
  rw [Bytes.foldl_addedLine_nil, Bytes.foldl_addedLine_nil,
    ← Bytes.dropWhile_map_shownLine]
  rfl

end Block

def Catalog.opened (vocabulary : Vocabulary) (file source : Bytes) : Catalog :=
  { Catalog.empty vocabulary with
    declarations := Declarations.empty.addSource ⟨file, source⟩ }

namespace Recorder

def beforeDeclaration (vocabulary : Vocabulary) (file source : Bytes)
    (b : Block) : Recorder :=
  { start (.opened vocabulary file source) file source [] with
    reader :=
      ⟨{ Catalog.opened vocabulary file source with
         docs := { Docs.empty with blocks := #[b], listedBlocks := [0] } },
        some 0, some ⟨0, .detailed, none⟩, [], [0], none⟩ }

theorem flush_lineComments {vocabulary : Vocabulary} {first : Bytes}
    {more : List Bytes}
    (htexts : ∀ text ∈ first :: more, text.IsCommentText vocabulary)
    (file source : Bytes) (finish : Place) :
    (start (.opened vocabulary file source) file source
        (commentTokens .start (first :: more) ++
          declarationTokens finish)).flush finish.offset =
      beforeDeclaration vocabulary file source
        (Block.withComments
          { kind := .normal, file, pos := Place.start.pos (3 + first.length) }
          (first :: more)) := by
  obtain ⟨hfirst, hmore⟩ := List.forall_mem_cons.1 htexts
  let t : Token :=
    ⟨.comment .line false first, Place.start.pos (3 + first.length),
      utf8 "--!" ++ first⟩
  let r : Recorder := start (.opened vocabulary file source) file source []
  -- The first line starts a block.
  have hread : r.readComment none t = beforeDeclaration vocabulary file source
      (Reading.withComment first { kind := .normal, file, pos := t.pos }) := by
    have hreader := CommentReader.readAhead_new r.reader file t.pos hfirst.prose
    exact congrArg (fun reader => { r with reader }) hreader
  have hresume :
      (r.readComment none t).reader.resume = some ⟨0, .detailed, none⟩ := by
    rw [hread]
    rfl
  -- The others go into it.
  have hcontinued :=
    readComments_continued (r := r.readComment none t)
      (by rw [hread]; exact hmore) hresume rfl
      (rfl : t.isRetroactive = false) rfl
      (line_after_commentLine hfirst.oneLine .start)
  rw [hread] at hcontinued
  have hflush : (start (.opened vocabulary file source) file source
      (commentTokens .start (first :: more) ++ declarationTokens finish)).flush
        finish.offset =
        r.readComments none (commentTokens .start (first :: more)) := by
    have hruns : (start (.opened vocabulary file source) file source
        (commentTokens .start (first :: more) ++
          declarationTokens finish)).comments =
          [(finish.offset, commentTokens .start (first :: more))] :=
            runs_commentedSource (by simp) finish
    have hlookup :
        [(finish.offset, commentTokens .start (first :: more))].lookup
          finish.offset =
        some (commentTokens .start (first :: more)) := by simp
    have hleft : [(finish.offset, commentTokens .start (first :: more))].filter
        (·.1 != finish.offset) = [] := by simp
    unfold flush
    rw [hruns, hlookup]
    dsimp only
    rw [hleft]
    rfl
  rw [hflush, commentTokens, readComments, hread, hcontinued]
  exact congrArg (beforeDeclaration vocabulary file source) rfl

theorem extend_constant (source : Bytes) (pos : Pos) :
    (Value.ofToken .constant source pos).extend pos =
      .ofToken .constant source pos := by
  simp [Value.extend, Value.extendTo, Value.ofToken, Value.ofSpan, Value.isEmpty]

end Recorder

/-- Whether there is one item, which one block documents, and no warning. -/
structure Catalog.Holds (c : Catalog) (item : Item) (b : Block) : Prop where
  items : c.declarations.items = #[item]
  blocks : c.docs.blocks = #[b]
  attached : c.docs.attached = [(0, 0)]
  noWarning : c.docs.warnings = 0

theorem Catalog.Holds.note {c : Catalog} {item : Item} {b : Block}
    (h : c.Holds item b) (notice : Notice) : (c.note notice).Holds item b :=
  ⟨h.items, h.blocks, h.attached, h.noWarning⟩

namespace Recorder

/-- A source is read from the comments before its first token on. -/
theorem recordSource_comments (catalog : Catalog) (file source : Bytes)
    (tokens : List Token) (offset : Nat) (nodes : List Node) :
    recordSource catalog file source tokens ⟨.comments offset :: nodes, none⟩ =
      (((start catalog file source tokens).flush offset).walkAll none none
        nodes).2.leaveFile := rfl

theorem declaration_recorded (vocabulary : Vocabulary)
    (file source comment detailed : Bytes) (pos : Pos) (place : Place) :
    let waiting : Block :=
  { kind := .normal, file, pos, source := comment, detailed }
    ((beforeDeclaration vocabulary file source waiting).walkAll none none
        (declarationNodes source place)).2.leaveFile.catalog.Holds
      ⟨utf8 "x", file, place.pos 1, false, true,
        .variable_
          ((Value.ofToken .constant source
            ((place.after (utf8 "x = ")).pos 1)).extend
          ((place.after (utf8 "x = ")).pos 1))⟩
      { waiting with item := some 0 } :=
  ⟨rfl, rfl, rfl, rfl⟩

end Recorder

namespace Catalog

/-- Comments on consecutive lines document the declaration that follows them.
It is the only item, its block is the only one, and there are no warnings. -/
theorem lineComments_document {vocabulary : Vocabulary} {first : Bytes}
    {more : List Bytes} (file : Bytes)
    (htexts : ∀ text ∈ first :: more, text.IsCommentText vocabulary) :
    let source := commentedSource (first :: more)
    let place := Place.start.after ((first :: more).flatMap commentLine)
    let read := (Catalog.empty vocabulary).readSource file source
    read.1 = none ∧
      read.2.Holds
        ⟨utf8 "x", file, place.pos 1, false, true,
          .variable_
            (.ofToken .constant source ((place.after (utf8 "x = ")).pos 1))⟩
        { kind := .normal, file, pos := Place.start.pos (3 + first.length),
          source := Bytes.stacked (first :: more),
          detailed := Bytes.join [Byte.lineFeed]
            (((first :: more).dropWhile (·.isBlank)).map Bytes.shownLine),
          item := some 0 } := by
  intro source place read
  have hlines : ∀ text ∈ first :: more, Byte.lineFeed ∉ text :=
    fun text htext => (htexts text htext).oneLine
  have htokens : tokenize source = commentTokens .start (first :: more) ++
      declarationTokens place :=
    tokenize_commentedSource htexts
  have hfault :
      (tokenize source).findSome? (SourceError.ofToken? file) = none := by
    rw [htokens]
    exact findSome?_commentedSource file .start place (first :: more)
  have houtline : Outline.ofSource source (tokenize source) =
      ⟨.comments place.offset :: declarationNodes source place, none⟩ := by
    rw [htokens, Outline.ofSource, filter_commentedSource]
    exact ofTokens_declaration source place
  have hflush := Recorder.flush_lineComments htexts file source place
  rw [Block.withComments_new hlines] at hflush
  have hrecorded :=
    Recorder.declaration_recorded vocabulary file source
      (Bytes.stacked (first :: more))
      (Bytes.join [Byte.lineFeed]
        (((first :: more).dropWhile (·.isBlank)).map Bytes.shownLine))
      (Place.start.pos (3 + first.length)) place
  dsimp only at hrecorded
  rw [Recorder.extend_constant, ← hflush, ← htokens] at hrecorded
  have hread :
      read = (none,
        (Recorder.recordSource (.opened vocabulary file source) file source
          (tokenize source)
      ⟨.comments place.offset :: declarationNodes source place, none⟩).catalog.note
        (.read file ((tokenize source).filter (!·.kind.isComment)).length)) := by
    change (Catalog.empty vocabulary).readSource file source = _
    unfold readSource
    dsimp only
    rw [hfault, houtline]
    rfl
  rw [hread, Recorder.recordSource_comments]
  exact ⟨rfl, hrecorded.note _⟩

/-- Four lines, of which the first is blank and the third too, with an unknown
command and a tab. -/
theorem lineComments_document_sample :
    let texts := [utf8 " ", utf8 "\tuse \\lua ", utf8 "", utf8 "  [[at@home"]
    (∀ text ∈ texts, text.IsCommentText .empty) ∧
      commentedSource texts =
        utf8 "--! \n--!\tuse \\lua \n--!\n--!  [[at@home\nx = 1" ∧
      ((Catalog.empty .empty).readSource (utf8 "a.lua")
        (commentedSource texts)).2.docs.blocks =
        #[{ kind := .normal, file := utf8 "a.lua", pos := ⟨0, 4, 1, 1⟩,
            source := utf8 " \n\tuse \\lua \n\n  [[at@home",
            detailed := utf8 "use \\lua \n\n[[at@home", item := some 0 }] := by
  have htexts :
      ∀ text ∈ [utf8 " ", utf8 "\tuse \\lua ", utf8 "", utf8 "  [[at@home"],
      text.IsCommentText .empty := by
    simp only [List.forall_mem_cons, List.not_mem_nil, false_implies,
      implies_true, and_true]
    refine ⟨⟨?_, ?_, ?_, ?_⟩, ⟨?_, ?_, ?_, ?_⟩, ⟨?_, ?_, ?_, ?_⟩, ?_, ?_, ?_, ?_⟩
    all_goals decide +kernel
  refine ⟨htexts, by decide +kernel,
    (lineComments_document (utf8 "a.lua") htexts).2.blocks.trans ?_⟩
  decide +kernel

end Catalog

end LuaGloss

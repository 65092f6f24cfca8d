import LuaGloss.Comment.Reader
import LuaGloss.Proofs.Docs.Links
import LuaGloss.Proofs.Token.Lexeme
import LuaGloss.Settings

/-!
# Base types in tags

A command for base types leaves its tag in a block with a word in the places
that ask for it, and the word is read off the tag again when the base type is
asked for.  The two are inverse to each other for the usual commands: those that
take a parameter and whose tag asks for it in one place.

Settings are accepted that describe other commands.  If the tag asks for the
parameter in several places, all of them are filled in, but what stands between
them is looked for as it was before, and nothing is found.  If the command takes
no parameter, the tag is left as it is, and what is read off is the mark that
stands for the parameter.
-/

namespace LuaGloss

namespace Bytes

theorem cut_front (sep after : Bytes) :
    cut sep (sep ++ after) = some ([], after) := by
  by_cases hsep : sep = []
  · subst hsep
    cases after <;> simp [cut, List.isPrefixOf?]
  · exact cut_append hsep after

theorem cut_append_of_disjoint {sep s : Bytes} (hsep : sep ≠ [])
    (h : ∀ b ∈ sep, b ∉ s) (after : Bytes) :
    cut sep (s ++ (sep ++ after)) = some (s, after) := by
  cases sep with
  | nil => exact absurd rfl hsep
  | cons c sep =>
      exact (Passes.of_not_mem (h c List.mem_cons_self)).cut_eq hsep after

theorem isSome_cut_append (earlier sep later : Bytes) :
    (cut sep (earlier ++ (sep ++ later))).isSome := by
  induction earlier with
  | nil => simp [cut_front]
  | cons b earlier ih =>
      rw [List.cons_append, cut]
      split
      · rfl
      · simpa using ih

theorem cut_eq_none_of_count_lt {sep s : Bytes} {b : UInt8}
    (h : s.count b < sep.count b) : cut sep s = none := by
  cases hcut : cut sep s with
  | none => rfl
  | some parts =>
      obtain ⟨before, after⟩ := parts
      have hcount := congrArg (List.count b) (cut_eq_some hcut).1
      simp only [List.count_append] at hcount
      omega

end Bytes

/-! ## Filling in a tag -/

namespace CustomCommand

theorem placeholder_eq : utf8 "%s" = [Byte.percent, 115] := by decide

theorem fill_cons {b : UInt8} {rest : Bytes}
    (h : (utf8 "%s").isPrefixOf? (b :: rest) = none) (param : Bytes) :
    fill param (b :: rest) = b :: fill param rest := by
  rw [fill]
  rintro rest' rfl rfl
  simp [placeholder_eq, List.isPrefixOf?] at h

theorem fill_of_cut_eq_none {s : Bytes} (h : Bytes.cut (utf8 "%s") s = none)
    (param : Bytes) : fill param s = s := by
  induction s with
  | nil => rfl
  | cons b rest ih =>
      rw [Bytes.cut] at h
      split at h
      · simp at h
      next hnone => rw [fill_cons hnone, ih (Option.map_eq_none_iff.1 h)]

theorem fill_of_cut_eq_some {s before after : Bytes}
    (h : Bytes.cut (utf8 "%s") s = some (before, after)) (param : Bytes) :
    fill param s = before ++ (param ++ fill param after) := by
  induction s generalizing before with
  | nil => simp [Bytes.cut, placeholder_eq] at h
  | cons b rest ih =>
      rw [Bytes.cut] at h
      split at h
      next found hfound =>
        obtain ⟨rfl, rfl⟩ : [] = before ∧ found = after := by simpa using h
        rw [← List.isPrefixOf?_eq_some_iff_append_eq.1 hfound, placeholder_eq]
        rfl
      next hnone =>
        obtain ⟨⟨before', after'⟩, hcut, heq⟩ := Option.map_eq_some_iff.1 h
        obtain ⟨rfl, rfl⟩ : b :: before' = before ∧ after' = after := by
          simpa using heq
        rw [fill_cons hnone, ih hcut]
        rfl

theorem count_fill_le {param : Bytes} (hparam : Byte.percent ∉ param) (s : Bytes) :
    (fill param s).count Byte.percent ≤ s.count Byte.percent := by
  fun_induction fill param s with
  | case1 rest ih =>
      have hnone : param.count Byte.percent = 0 := List.count_eq_zero.2 hparam
      simp only [List.count_append, List.count_cons]
      omega
  | case2 b rest _ ih =>
      simp only [List.count_cons]
      omega
  | case3 => exact Nat.le_refl _

theorem count_fill_lt {param s : Bytes} (hparam : Byte.percent ∉ param)
    (h : Bytes.contains s (utf8 "%s") = true) :
    (fill param s).count Byte.percent < s.count Byte.percent := by
  obtain ⟨⟨before, after⟩, hcut⟩ := Option.isSome_iff_exists.1 h
  have hnone : param.count Byte.percent = 0 := List.count_eq_zero.2 hparam
  have hafter := count_fill_le hparam after
  have hmark : (utf8 "%s").count Byte.percent = 1 := by decide
  rw [fill_of_cut_eq_some hcut, (Bytes.cut_eq_some hcut).1]
  simp only [List.count_append]
  omega

/-! ## Reading off the parameter -/

variable {command : CustomCommand} {before after : Bytes}
  (hbase : command.isBaseType = true)
  (hcut : Bytes.cut (utf8 "%s") command.tag = some (before, after))

include hbase hcut

theorem baseType?_append (rest : Bytes) :
    command.baseType? (before ++ rest) =
      if after.isEmpty then some rest
        else (Bytes.cut after rest).map Prod.fst := by
  simp [baseType?, hbase, hcut, Bytes.cut_front]

theorem baseType?_filled {param : Bytes} (hdisjoint : ∀ b ∈ after, b ∉ param)
    (honce : Bytes.contains after (utf8 "%s") = false) :
    command.baseType? (fill param command.tag) = some param := by
  have hafter : fill param after = after :=
    fill_of_cut_eq_none (by simpa [Bytes.contains] using honce) param
  rw [fill_of_cut_eq_some hcut, hafter, baseType?_append hbase hcut]
  by_cases hempty : after = []
  · simp [hempty]
  · have hfound := Bytes.cut_append_of_disjoint hempty hdisjoint []
    rw [List.append_nil] at hfound
    simp [hempty, hfound]

/-- What follows the first place has been filled in, and is not found any
more. -/
theorem baseType?_filled_again {param : Bytes}
    (hdisjoint : ∀ b ∈ after, b ∉ param)
    (hagain : Bytes.contains after (utf8 "%s") = true) :
    command.baseType? (fill param command.tag) = none := by
  have hpercent : Byte.percent ∉ param := by
    obtain ⟨⟨before', after'⟩, hcut'⟩ := Option.isSome_iff_exists.1 hagain
    apply hdisjoint
    rw [(Bytes.cut_eq_some hcut').1, placeholder_eq]
    simp
  have hempty : after ≠ [] := by
    rintro rfl
    exact absurd hagain (by decide)
  have hcount : (param ++ fill param after).count Byte.percent <
      after.count Byte.percent := by
    have hlt := count_fill_lt hpercent hagain
    rw [List.count_append, List.count_eq_zero.2 hpercent]
    omega
  rw [fill_of_cut_eq_some hcut, baseType?_append hbase hcut,
    Bytes.cut_eq_none_of_count_lt hcount]
  simp [hempty]

/-- What is read off an unfilled tag is the mark for the parameter, or a part of
it if what follows the mark begins inside. -/
theorem baseType?_unfilled :
    ∃ base, command.baseType? command.tag = some base ∧ base <+: utf8 "%s" := by
  rw [(Bytes.cut_eq_some hcut).1, baseType?_append hbase hcut]
  by_cases hempty : after = []
  · exact ⟨utf8 "%s", by simp [hempty], List.prefix_rfl⟩
  · obtain ⟨⟨base, rest⟩, hfound⟩ :=
      Option.isSome_iff_exists.1 (Bytes.isSome_cut_append (utf8 "%s") after [])
    rw [List.append_nil] at hfound
    obtain ⟨happend, hfirst⟩ := Bytes.cut_eq_some hfound
    refine ⟨base, by simp [hempty, hfound], ?_⟩
    have hlength : base.length ≤ (utf8 "%s").length :=
      hfirst (utf8 "%s") [] (by simp)
    exact List.prefix_of_prefix_length_le ⟨after ++ rest, happend.symm⟩
      (List.prefix_append _ _) hlength

end CustomCommand

/-! ## One command on its own -/

theorem Settings.error?_of_mem {settings : Settings}
    (h : settings.error? = none) {setting : CommandSetting}
    (hmem : setting ∈ settings.commands) :
    ∃ number, setting.error? number = none := by
  obtain ⟨i, hi⟩ := List.mem_iff_getElem?.1 hmem
  have hindexed : (setting, i) ∈ settings.commands.zipIdx :=
    List.mem_zipIdx_iff_getElem?.2 hi
  exact ⟨i + 1, List.findSome?_eq_none_iff.1 h (setting, i) hindexed⟩

theorem CommandSetting.cut_tag {setting : CommandSetting} {number : Nat}
    (h : setting.error? number = none) (hbase : setting.isBaseType = true) :
    ∃ before after, Bytes.cut (utf8 "%s") setting.tag = some (before, after) := by
  have hmark : setting.tag.contains (utf8 "%s") = true := by
    unfold error? at h
    split at h
    · simp at h
    · split at h
      · simp at h
      · split at h
        · simp at h
        · simpa [hbase] using h
  obtain ⟨⟨before, after⟩, hcut⟩ := Option.isSome_iff_exists.1 hmark
  exact ⟨before, after, hcut⟩

theorem Vocabulary.find?_single (command : CustomCommand) :
    (empty.add command).find? command.name = some command := by
  simp [empty, add, find?]

theorem Vocabulary.baseType_single (command : CustomCommand) (tags : Bytes) :
    (empty.add command).baseType tags = (command.baseType? tags).getD [] := by
  simp [empty, add, baseType]

namespace Reading

theorem splitWord_append {word rest : Bytes} (hne : word ≠ [])
    (hword : ∀ b ∈ word, Byte.isIndent b = false)
    (hrest : ∀ b ∈ rest.head?, Byte.isIndent b = true) :
    splitWord (word ++ rest) = (word, rest) := by
  have hfront : (word ++ rest).dropWhile Byte.isIndent = word ++ rest := by
    cases word with
    | nil => exact absurd rfl hne
    | cons b word => simp [hword b (by simp)]
  have hpos : ∀ b ∈ word, (!Byte.isIndent b) = true := by simpa using hword
  have hstop : rest.takeWhile (!Byte.isIndent ·) = [] ∧
      rest.dropWhile (!Byte.isIndent ·) = rest := by
    cases rest with
    | nil => exact ⟨rfl, rfl⟩
    | cons b rest => simp [hrest b (by simp)]
  unfold splitWord Bytes.trimLeft
  dsimp only
  rw [hfront, List.takeWhile_append_of_pos hpos,
    List.dropWhile_append_of_pos hpos, hstop.1, hstop.2, List.append_nil]

theorem block?_modifyBlock {s : Reading} {b : Block} (h : s.block? = some b)
    (f : Block → Block) : (s.modifyBlock f).block? = some (f b) := by
  change (s.reader.catalog.docs.modifyBlock s.place.block f).block?
    s.place.block = _
  rw [Docs.block?_modifyBlock, if_pos rfl]
  exact congrArg (Option.map f) h

/-- Take a command for base types from settings without mistakes, and a
vocabulary with only this command.  On a block without tags, with a word that
has none of the bytes of what follows the first place for the parameter, the
command leaves a tag.  If it takes a parameter, the word is used up, and it is
the base type of the block unless the tag asks for the parameter again; then
there is none.  If it takes no parameter, the base type is the mark for the
parameter or a part of it, whatever the word is. -/
theorem baseType_obeyCustom {settings : Settings}
    (hvalid : settings.error? = none) {setting : CommandSetting}
    (hmem : setting ∈ settings.commands) (hbase : setting.isBaseType = true) :
    let vocabulary := Vocabulary.empty.add setting.toCommand
    ∃ before after, Bytes.cut (utf8 "%s") setting.tag = some (before, after) ∧
      ∀ (s : Reading) (b : Block) (mark : UInt8) (word rest : Bytes),
        s.reader.catalog.vocabulary = vocabulary → s.block? = some b →
        b.tags = [] →
        word ≠ [] → (∀ x ∈ word, Byte.isIndent x = false) →
        (∀ x ∈ rest.head?, Byte.isIndent x = true) →
        (∀ x ∈ after, x ∉ word) →
          let result := s.obeyCustom mark setting.name (word ++ rest)
          ∃ tags, result.1.block? = some { b with tags } ∧
            if setting.takesParam then
              result.2 = rest ∧
              vocabulary.baseType tags =
                if Bytes.contains after (utf8 "%s") then [] else word
            else result.2 = word ++ rest ∧
            vocabulary.baseType tags <+: utf8 "%s" := by
  intro vocabulary
  obtain ⟨number, herror⟩ := Settings.error?_of_mem hvalid hmem
  obtain ⟨before, after, hcut⟩ := setting.cut_tag herror hbase
  refine ⟨before, after, hcut, ?_⟩
  intro s b mark word rest hvocabulary hb htags hne hword hrest hdisjoint result
  have hfind :
      s.reader.catalog.vocabulary.find? setting.name = some setting.toCommand := by
    rw [hvocabulary]
    exact Vocabulary.find?_single setting.toCommand
  have hobey : result =
      (s.modifyBlock fun b =>
        { b with tags := b.tags ++ setting.toCommand.leaves word },
        if setting.takesParam then rest else word ++ rest) := by
    unfold result obeyCustom
    simp only [hfind, splitWord_append hne hword hrest]
    rfl
  rw [hobey]
  refine ⟨setting.toCommand.leaves
    word, by simp [block?_modifyBlock hb, htags], ?_⟩
  have hbaseType (tags : Bytes) :
      vocabulary.baseType tags = (setting.toCommand.baseType? tags).getD [] :=
    Vocabulary.baseType_single setting.toCommand tags
  have hleaves : setting.toCommand.leaves word =
      if setting.takesParam then CustomCommand.fill word setting.tag
        else setting.tag := rfl
  rw [hbaseType, hleaves]
  by_cases hparam : setting.takesParam = true
  · simp only [hparam, if_true, true_and]
    by_cases hagain : Bytes.contains after (utf8 "%s") = true
    · have hlost :
          setting.toCommand.baseType? (CustomCommand.fill word setting.tag) =
            none :=
        CustomCommand.baseType?_filled_again hbase hcut hdisjoint hagain
      rw [if_pos hagain, hlost, Option.getD_none]
    · have hfound :
          setting.toCommand.baseType? (CustomCommand.fill word setting.tag) =
            some word :=
        CustomCommand.baseType?_filled hbase hcut hdisjoint
          (Bool.eq_false_iff.2 hagain)
      rw [if_neg hagain, hfound, Option.getD_some]
  · simp only [hparam, Bool.false_eq_true, if_false, true_and]
    have hmark : ∃ base, setting.toCommand.baseType? setting.tag = some base ∧
        base <+: utf8 "%s" :=
      CustomCommand.baseType?_unfilled hbase hcut
    obtain ⟨base, hfound, hprefix⟩ := hmark
    rw [hfound, Option.getD_some]
    exact hprefix

private def repeatedSetting : CommandSetting :=
  ⟨utf8 "pair", utf8 ":pair(%s, %s)", [], true, true⟩

private def unfilledSetting : CommandSetting :=
  ⟨utf8 "extends", utf8 ":extends(%s)", [], false, true⟩

private def unusualSettings : Settings :=
  { Settings.default with commands := [repeatedSetting, unfilledSetting] }

private def readingWith (setting : CommandSetting) : Reading :=
  (CommentReader.ofCatalog (.empty (Vocabulary.empty.add setting.toCommand))
    [0]).startNew (utf8 "a.lua") ⟨0, 8, 1, 1⟩

/-- Both commands are accepted, and with neither of them is the word the base
type. -/
theorem baseType_obeyCustom_unusual :
    unusualSettings.error? = none ∧
    (∃ tags, ((readingWith repeatedSetting).obeyCustom Byte.backslash
      repeatedSetting.name (utf8 "B")).1.block?.map
        (·.tags) = some tags ∧
        (Vocabulary.empty.add repeatedSetting.toCommand).baseType tags = []) ∧
    ∃ tags, ((readingWith unfilledSetting).obeyCustom Byte.backslash
      unfilledSetting.name (utf8 "B")).1.block?.map
        (·.tags) = some tags ∧
        (Vocabulary.empty.add unfilledSetting.toCommand).baseType
          tags <+: utf8 "%s" := by
  have hvalid : unusualSettings.error? = none := by decide +kernel
  have hrepeated : Bytes.cut (utf8 "%s") repeatedSetting.tag =
      some (utf8 ":pair(", utf8 ", %s)") := by decide +kernel
  have hunfilled : Bytes.cut (utf8 "%s") unfilledSetting.tag =
      some (utf8 ":extends(", utf8 ")") := by decide +kernel
  have hb (setting : CommandSetting) :
      ∃ b, (readingWith setting).block? = some b ∧ b.tags = [] := ⟨_, rfl, rfl⟩
  refine ⟨hvalid, ?_, ?_⟩
  · have hmem : repeatedSetting ∈ unusualSettings.commands := by decide +kernel
    obtain ⟨before, after, hcut, hobey⟩ := baseType_obeyCustom hvalid hmem rfl
    obtain ⟨rfl, rfl⟩ := Prod.mk.inj (Option.some.inj (hcut.symm.trans hrepeated))
    obtain ⟨b, hb, htags⟩ := hb repeatedSetting
    have hread :=
      hobey (readingWith repeatedSetting) b Byte.backslash (utf8 "B") []
        rfl hb htags
        (by decide) (by decide +kernel) (by simp) (by decide +kernel)
    rw [List.append_nil] at hread
    obtain ⟨tags, hblock, -, hbase⟩ := hread
    exact ⟨tags, by rw [hblock]; rfl, hbase⟩
  · have hmem : unfilledSetting ∈ unusualSettings.commands := by decide +kernel
    obtain ⟨before, after, hcut, hobey⟩ := baseType_obeyCustom hvalid hmem rfl
    obtain ⟨rfl, rfl⟩ := Prod.mk.inj (Option.some.inj (hcut.symm.trans hunfilled))
    obtain ⟨b, hb, htags⟩ := hb unfilledSetting
    have hread :=
      hobey (readingWith unfilledSetting) b Byte.backslash (utf8 "B") []
        rfl hb htags
        (by decide) (by decide +kernel) (by simp) (by decide +kernel)
    rw [List.append_nil] at hread
    obtain ⟨tags, hblock, -, hbase⟩ := hread
    exact ⟨tags, by rw [hblock]; rfl, hbase⟩

end Reading

end LuaGloss

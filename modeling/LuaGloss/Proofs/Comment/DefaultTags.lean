import LuaGloss.Proofs.Comment.BaseTypes

/-!
# Tags of the usual commands

The tags of a block stand one after another with nothing between them, and are
looked for anywhere among them.  With the commands of the default vocabulary
nothing is found that was not left.

What is looked for is a colon, a name and the byte that ends the name.  A colon
stands only at the front of a tag and at the end of some.  Behind one at the end
there is no name, and behind one at the front there is the name of the command
with the byte that ends it.  So a search finds the first tag of the command that
it is for.
-/

namespace LuaGloss

namespace Bytes

def after? (sep s : Bytes) : Option Bytes := (cut sep s).map Prod.snd

theorem contains_eq_isSome_after? (s part : Bytes) :
    s.contains part = (after? part s).isSome := by
  simp [contains, after?]

theorem after?_append (sep rest : Bytes) :
    after? sep (sep ++ rest) = some rest := by
  simp [after?, cut_front]

theorem after?_cons_of_not_prefix {sep rest : Bytes} {b : UInt8}
    (h : ¬ sep <+: b :: rest) : after? sep (b :: rest) = after? sep rest := by
  have hnone : sep.isPrefixOf? (b :: rest) = none := by
    cases hfound : sep.isPrefixOf? (b :: rest) with
    | none => rfl
    | some found =>
        exact absurd ⟨found, List.isPrefixOf?_eq_some_iff_append_eq.1 hfound⟩ h
  simp only [after?, cut, hnone, Option.map_map]
  rfl

theorem after?_append_of_not_mem {b : UInt8} {s : Bytes} (h : b ∉ s)
    (sep rest : Bytes) :
    after? (b :: sep) (s ++ rest) = after? (b :: sep) rest := by
  induction s with
  | nil => rfl
  | cons c s ih =>
      have hne : b ≠ c := fun heq => h (by simp [heq])
      have hnot : ¬ b :: sep <+: c :: (s ++ rest) :=
        fun hprefix => hne (List.cons_prefix_cons.1 hprefix).1
      rw [List.cons_append, after?_cons_of_not_prefix hnot, ih fun hmem =>
        h (List.mem_cons_of_mem c hmem)]

theorem eq_of_word_prefix {word name rest : Bytes} {x y : UInt8}
    (hword : ∀ b ∈ word, Byte.isLetter b = true)
    (hname : ∀ b ∈ name, Byte.isLetter b = true) (hx : Byte.isLetter x = false)
    (hy : Byte.isLetter y = false) (h : word ++ [x] <+: name ++ y :: rest) :
    word = name ∧ x = y := by
  induction word generalizing name with
  | nil =>
      cases name with
      | nil => exact ⟨rfl, (List.cons_prefix_cons.1 h).1⟩
      | cons c name =>
          obtain rfl := (List.cons_prefix_cons.1 h).1
          simp [hname] at hx
  | cons b word ih =>
      cases name with
      | nil =>
          obtain rfl := (List.cons_prefix_cons.1 h).1
          simp [hword] at hy
      | cons c name =>
          obtain ⟨rfl, htail⟩ := List.cons_prefix_cons.1 h
          obtain ⟨rfl, rfl⟩ :=
            ih (fun b hb => hword b (by simp [hb])) (fun b hb =>
              hname b (by simp [hb])) htail
          exact ⟨rfl, rfl⟩

end Bytes

/-- A custom command in a comment, with the text that follows it. -/
structure CommandUse where
  mark : UInt8
  name : Bytes
  argument : Bytes

namespace CommandUse

def param (use : CommandUse) : Bytes := (Reading.splitWord use.argument).1

def hasName (name : Bytes) (use : CommandUse) : Bool := use.name == name

/-- A command of the default vocabulary; a base type consists of letters,
digits, underscores and dots. -/
structure IsUsual (use : CommandUse) : Prop where
  name : use.name ∈ Vocabulary.default.commands.map (·.name)
  param : use.name = utf8 "luabasetype" →
    ∀ b ∈ use.param, CommentToken.isWordByte b = true

/-- The kind that the uses decide, whatever their order. -/
def kindOf (uses : List CommandUse) : VariableKind :=
  if uses.any (hasName (utf8 "luastruct")) then .struct
  else if uses.any (hasName (utf8 "luaenum")) then .enum
  else if uses.any (hasName (utf8 "luaclass")) then .class_
  else if uses.any (hasName (utf8 "luamodule")) then .module_
  else .normal

/-- The parameter of the first use that gives a base type. -/
def baseTypeOf (uses : List CommandUse) : Bytes :=
  ((uses.find? (hasName (utf8 "luabasetype"))).map param).getD []

/-! ## The tags that are left -/

/-- What ends the name in a tag: a parenthesis before a parameter, otherwise a
colon. -/
def ending (name : Bytes) : UInt8 :=
  if name = utf8 "luabasetype" then 40 else Byte.colon

/-- The front of the tag of a usual command, which is what is looked for. -/
def front (name : Bytes) : Bytes := Byte.colon :: (name ++ [ending name])

def filling (use : CommandUse) : Bytes :=
  if use.name = utf8 "luabasetype" then use.param ++ [41] else []

def tag (use : CommandUse) : Bytes := front use.name ++ use.filling

theorem leaves_eq_tag {use : CommandUse} (h : use.IsUsual) :
    ∃ command, Vocabulary.default.find? use.name = some command ∧
    command.leaves use.param = use.tag := by
  obtain ⟨command, hmem, hname⟩ := List.mem_map.1 h.name
  have hfind : ∀ command ∈ Vocabulary.default.commands,
      Vocabulary.default.find? command.name = some command := by
    decide +kernel
  have hcut : ∀ command ∈ Vocabulary.default.commands,
      if command.name = utf8 "luabasetype" then
        command.takesParam = true ∧ Bytes.cut (utf8 "%s") command.tag =
          some (front command.name, [41])
      else command.takesParam = false ∧ command.tag = front command.name := by
        decide +kernel
  refine ⟨command, hname ▸ hfind command hmem, ?_⟩
  specialize hcut command hmem
  rw [hname] at hcut
  unfold tag filling CustomCommand.leaves
  split at hcut
  next hbase =>
    rw [if_pos hcut.1, CustomCommand.fill_of_cut_eq_some hcut.2, if_pos hbase]
    rfl
  next hbase =>
    rw [hcut.1, if_neg hbase, List.append_nil, ← hcut.2, if_neg Bool.false_ne_true]

theorem isLetter_of_mem_default {name : Bytes}
    (h : name ∈ Vocabulary.default.commands.map (·.name)) :
    name ≠ [] ∧ ∀ b ∈ name, Byte.isLetter b = true := by
  have hall : ∀ name ∈ Vocabulary.default.commands.map (·.name), name ≠ [] ∧
      ∀ b ∈ name, Byte.isLetter b = true := by
    decide +kernel
  exact hall name h

theorem not_mem_param {use : CommandUse} (h : use.IsUsual)
    (hbase : use.name = utf8 "luabasetype") {b : UInt8}
    (hb : CommentToken.isWordByte b = false) : b ∉ use.param :=
  fun hmem => Bool.false_ne_true (hb.symm.trans (h.param hbase b hmem))

/-! ## Looking for a tag -/

section Search

variable {word : Bytes} (hword : word ∈ Vocabulary.default.commands.map (·.name))

include hword

theorem not_front_prefix_cons {rest : Bytes}
    (hrest : ∀ b ∈ rest.head?, b = Byte.colon) :
    ¬ front word <+: Byte.colon :: rest := by
  obtain ⟨hne, hletters⟩ := isLetter_of_mem_default hword
  intro hprefix
  have htail := (List.cons_prefix_cons.1 hprefix).2
  cases word with
  | nil => exact hne rfl
  | cons b word =>
      cases rest with
      | nil => simp at htail
      | cons c rest =>
          obtain rfl : b = c := (List.cons_prefix_cons.1 htail).1
          obtain rfl : b = Byte.colon := hrest b rfl
          exact absurd (hletters Byte.colon (by simp)) (by decide)

theorem after?_front_ending {use : CommandUse} (h : use.IsUsual) {rest : Bytes}
    (hrest : ∀ b ∈ rest.head?, b = Byte.colon) :
    Bytes.after? (front word) (ending use.name :: (use.filling ++ rest)) =
      Bytes.after? (front word) rest := by
  by_cases hbase : use.name = utf8 "luabasetype"
  · have hcolon : Byte.colon ∉ 40 :: (use.param ++ [41]) := by
      have hparam : Byte.colon ∉ use.param := not_mem_param h hbase (by decide)
      simpa [hparam] using (by decide : Byte.colon ≠ 40 ∧ Byte.colon ≠ 41)
    have hskip : Bytes.after? (front word) (40 :: (use.param ++ [41]) ++ rest) =
        Bytes.after? (front word) rest :=
      Bytes.after?_append_of_not_mem hcolon (word ++ [ending word]) rest
    simpa [ending, filling, hbase] using hskip
  · simpa [ending, filling, hbase]
      using Bytes.after?_cons_of_not_prefix (not_front_prefix_cons hword hrest)

theorem after?_front_tag {use : CommandUse} (h : use.IsUsual)
    (hother : use.name ≠ word) {rest : Bytes}
    (hrest : ∀ b ∈ rest.head?, b = Byte.colon) :
    Bytes.after? (front word)
      (use.tag ++ rest) = Bytes.after? (front word) rest := by
  obtain ⟨-, hletters⟩ := isLetter_of_mem_default hword
  obtain ⟨-, hname⟩ := isLetter_of_mem_default h.name
  have hending (name : Bytes) : Byte.isLetter (ending name) = false := by
    unfold ending
    split <;> decide
  have hsplit : use.tag ++ rest = Byte.colon ::
      (use.name ++ ending use.name :: (use.filling ++ rest)) := by
    simp [tag, front]
  have hfront : ¬ front word <+: use.tag ++ rest := by
    rw [hsplit]
    intro hprefix
    have htail := (List.cons_prefix_cons.1 hprefix).2
    exact hother
      (Bytes.eq_of_word_prefix hletters hname (hending word) (hending use.name)
        htail).1.symm
  have hcolon : Byte.colon ∉ use.name :=
    fun hmem => absurd (hname _ hmem) (by decide)
  calc
    Bytes.after? (front word) (use.tag ++ rest)
      = Bytes.after? (front word) (use.name ++ ending use.name ::
        (use.filling ++ rest)) := by
        rw [hsplit] at hfront ⊢
        exact Bytes.after?_cons_of_not_prefix hfront
    _ = Bytes.after? (front word) (ending use.name :: (use.filling ++ rest)) :=
        Bytes.after?_append_of_not_mem hcolon (word ++ [ending word]) _
    _ = Bytes.after? (front word) rest := after?_front_ending hword h hrest

theorem after?_front_tags {uses : List CommandUse}
    (husual : ∀ use ∈ uses, use.IsUsual)
    (hother : ∀ use ∈ uses, use.name ≠ word) {rest : Bytes}
    (hrest : ∀ b ∈ rest.head?, b = Byte.colon) :
    Bytes.after? (front word)
      (uses.flatMap tag ++ rest) = Bytes.after? (front word) rest := by
  induction uses with
  | nil => rfl
  | cons use uses ih =>
      have hhead : ∀ b ∈ (uses.flatMap tag ++ rest).head?, b = Byte.colon := by
        cases uses with
        | nil => exact hrest
        | cons next uses => simp [tag, front]
      rw [List.flatMap_cons, List.append_assoc,
        after?_front_tag hword (husual use (by simp)) (hother use (by simp)) hhead]
      exact ih (fun use hmem => husual use (by simp [hmem])) (fun use hmem =>
        hother use (by simp [hmem]))

/-- A search finds the first tag of the command that it is for, and nothing if
the command is not used. -/
theorem after?_front_eq {uses : List CommandUse}
    (husual : ∀ use ∈ uses, use.IsUsual) : match uses.find? (hasName word) with
    | none => Bytes.after? (front word) (uses.flatMap tag) = none
    | some use =>
      ∃ later, Bytes.after? (front word) (uses.flatMap tag) =
        some (use.filling ++ later) := by
  split
  next hfind =>
    have hother : ∀ use ∈ uses, use.name ≠ word := by simpa [hasName] using hfind
    have hnil : ∀ b ∈ ([] : Bytes).head?, b = Byte.colon := by simp
    have hskip := after?_front_tags hword husual hother hnil
    rw [List.append_nil] at hskip
    exact hskip.trans rfl
  next use hfind =>
    obtain ⟨hname, earlier, later, rfl, hearlier⟩ :=
      List.find?_eq_some_iff_append.1 hfind
    obtain rfl : use.name = word := by simpa [hasName] using hname
    have hother : ∀ use' ∈ earlier, use'.name ≠ use.name := by
      simpa [hasName] using hearlier
    have hhead : ∀ b ∈ (use.tag ++ later.flatMap tag).head?, b =
        Byte.colon := by simp [tag, front]
    refine ⟨later.flatMap tag, ?_⟩
    rw [List.flatMap_append, List.flatMap_cons,
      after?_front_tags hword (fun use hmem => husual use (by simp [hmem]))
        hother hhead,
      tag, List.append_assoc, Bytes.after?_append]

theorem contains_front {uses : List CommandUse}
    (husual : ∀ use ∈ uses, use.IsUsual) :
    Bytes.contains (uses.flatMap tag) (front word) = uses.any (hasName word) := by
  have hsearch := after?_front_eq hword husual
  have hany : uses.any (hasName word) = (uses.find? (hasName word)).isSome := by
    rw [Bool.eq_iff_iff, List.find?_isSome, List.any_eq_true]
  rw [Bytes.contains_eq_isSome_after?, hany]
  split at hsearch
  next hfind =>
    rw [hsearch, hfind]
    rfl
  next use hfind =>
    obtain ⟨later, hfound⟩ := hsearch
    rw [hfound, hfind]
    rfl

end Search

end CommandUse

namespace Vocabulary

open LuaGloss.CommandUse

theorem baseType_default (tags : Bytes) :
    default.baseType tags =
      ((Bytes.after? (front (utf8 "luabasetype")) tags).bind fun rest =>
        (Bytes.cut [41] rest).map Prod.fst).getD [] := by
  have hcut : Bytes.cut (utf8 "%s") (utf8 ":luabasetype(%s)") =
      some (front (utf8 "luabasetype"), [41]) := by
    decide +kernel
  cases hfound : Bytes.cut (front (utf8 "luabasetype")) tags <;>
    simp [baseType, default, CustomCommand.baseType?, hcut, hfound, Bytes.after?]

variable {uses : List CommandUse} (husual : ∀ use ∈ uses, use.IsUsual)

include husual

theorem classify_tags : default.classify (uses.flatMap tag) = kindOf uses := by
  have hmarks : ∀ command ∈ default.commands, command.marks (uses.flatMap tag) =
      (!command.takesParam && uses.any (hasName command.name)) := by
    intro command hmem
    have hkind : ∀ command ∈ default.commands, command.takesParam = false →
        command.kind ≠ .normal ∧ command.tag = front command.name := by
      decide +kernel
    unfold CustomCommand.marks
    cases hparam : command.takesParam with
    | true => rfl
    | false =>
        obtain ⟨hkind, htag⟩ := hkind command hmem hparam
        rw [htag, contains_front (List.mem_map_of_mem hmem) husual]
        simp [hkind, front]
  simp only [default, List.mem_cons, List.not_mem_nil, or_false,
    forall_eq_or_imp, forall_eq, Bool.not_false, Bool.not_true, Bool.true_and,
    Bool.false_and] at hmarks
  simp only [classify, default, kindOf, List.find?_cons, List.find?_nil, hmarks]
  grind

theorem baseType_tags : default.baseType (uses.flatMap tag) = baseTypeOf uses := by
  have hsearch :=
    after?_front_eq
      (show utf8 "luabasetype" ∈
        default.commands.map (·.name) by decide +kernel) husual
  rw [baseType_default, baseTypeOf]
  split at hsearch
  next hfind =>
    rw [hsearch, hfind]
    rfl
  next use hfind =>
    obtain ⟨later, hfound⟩ := hsearch
    have hname : use.name = utf8 "luabasetype" := by
      simpa [hasName] using List.find?_some hfind
    have hparam : 41 ∉ use.param :=
      not_mem_param (husual use (List.mem_of_find?_eq_some hfind))
        hname (by decide)
    have hdisjoint : ∀ b ∈ ([41] : Bytes), b ∉ use.param := by simpa using hparam
    rw [hfound, hfind, filling, if_pos hname, List.append_assoc, Option.bind_some,
      Bytes.cut_append_of_disjoint (by decide) hdisjoint later]
    rfl

end Vocabulary

namespace Reading

open LuaGloss.CommandUse

/-- Obeys custom commands one after another. -/
def obeyCustoms (s : Reading) (uses : List CommandUse) : Reading :=
  uses.foldl (fun s use => (s.obeyCustom use.mark use.name use.argument).1) s

theorem obeyCustom_usual {s : Reading}
    (hvocabulary : s.reader.catalog.vocabulary = .default) {b : Block}
    (hb : s.block? = some b) {use : CommandUse} (h : use.IsUsual) :
    let next := (s.obeyCustom use.mark use.name use.argument).1
    next.reader.catalog.vocabulary = .default ∧
    next.block? = some { b with tags := b.tags ++ use.tag } := by
  obtain ⟨command, hfind, hleaves⟩ := leaves_eq_tag h
  have hobey : (s.obeyCustom use.mark use.name use.argument).1 =
      s.modifyBlock fun b => { b with tags := b.tags ++ use.tag } := by
    rw [← hleaves]
    simp only [obeyCustom, hvocabulary, hfind]
    rfl
  rw [hobey]
  exact ⟨hvocabulary, block?_modifyBlock hb _⟩

theorem block?_obeyCustoms {s : Reading}
    (hvocabulary : s.reader.catalog.vocabulary = .default) {b : Block}
    (hb : s.block? = some b) {uses : List CommandUse}
    (husual : ∀ use ∈ uses, use.IsUsual) :
    (s.obeyCustoms uses).block? =
      some { b with tags := b.tags ++ uses.flatMap tag } := by
  induction uses generalizing s b with
  | nil => simpa [obeyCustoms] using hb
  | cons use uses ih =>
      obtain ⟨hnext, hblock⟩ :=
        obeyCustom_usual hvocabulary hb (husual use (by simp))
      have hrun := ih hnext hblock fun use hmem => husual use (by simp [hmem])
      rw [List.flatMap_cons, ← List.append_assoc]
      exact hrun

/-- Usual commands on a block without tags, in any number and order, leave tags
by which the block is what the commands say.  Its kind is that of the first of
`luastruct`, `luaenum`, `luaclass` and `luamodule`, in this order, that is used
at all, and its base type is the parameter of the first `luabasetype`. -/
theorem classify_obeyCustoms {s : Reading}
    (hvocabulary : s.reader.catalog.vocabulary = .default) {b : Block}
    (hb : s.block? = some b) (htags : b.tags = []) {uses : List CommandUse}
    (husual : ∀ use ∈ uses, use.IsUsual) :
    ∃ tags, (s.obeyCustoms uses).block? = some { b with tags } ∧
      Vocabulary.default.classify tags = kindOf uses ∧
      Vocabulary.default.baseType tags = baseTypeOf uses := by
  refine ⟨uses.flatMap tag, ?_, Vocabulary.classify_tags husual,
    Vocabulary.baseType_tags husual⟩
  rw [block?_obeyCustoms hvocabulary hb husual, htags, List.nil_append]

/-- Kinds in the wrong order, a base type with the name of a kind, and a text
that looks like a tag. -/
private def mixedUses : List CommandUse :=
  [⟨Byte.backslash, utf8 "luabasetype", utf8 " Base.x and more"⟩,
    ⟨Byte.at_, utf8 "luamodule", []⟩,
    ⟨Byte.backslash, utf8 "luabasetype", utf8 "luastruct"⟩,
    ⟨Byte.at_, utf8 "luaenum", utf8 ":luastruct:"⟩,
    ⟨Byte.at_, utf8 "luamodule", []⟩]

private def usualReading : Reading :=
  (CommentReader.ofCatalog (.empty .default) [0]).startNew (utf8 "a.lua")
    ⟨0, 8, 1, 1⟩

theorem classify_obeyCustoms_mixed :
    (∀ use ∈ mixedUses, use.IsUsual) ∧
    ∃ b tags, usualReading.block? = some b ∧ b.tags = [] ∧
      (usualReading.obeyCustoms mixedUses).block? = some { b with tags } ∧
      Vocabulary.default.classify tags = .enum ∧
      Vocabulary.default.baseType tags = utf8 "Base.x" := by
  have husual : ∀ use ∈ mixedUses, use.IsUsual := by
    have hname : ∀ use ∈ mixedUses, use.name ∈
        Vocabulary.default.commands.map (·.name) := by decide +kernel
    have hparam : ∀ use ∈ mixedUses, use.name = utf8 "luabasetype" →
        ∀ b ∈ use.param, CommentToken.isWordByte b = true := by decide +kernel
    exact fun use hmem => ⟨hname use hmem, hparam use hmem⟩
  obtain ⟨b, hb, htags⟩ : ∃ b, usualReading.block? = some b ∧ b.tags = [] :=
    ⟨_, rfl, rfl⟩
  obtain ⟨tags, hblock, hkind, hbase⟩ := classify_obeyCustoms rfl hb htags husual
  have hmixed : kindOf mixedUses = .enum ∧
      baseTypeOf mixedUses = utf8 "Base.x" := by decide +kernel
  exact ⟨husual, b, tags, hb, htags, hblock, hkind.trans hmixed.1,
    hbase.trans hmixed.2⟩

end Reading

end LuaGloss

import LuaGloss.Proofs.Files.Path
import LuaGloss.Proofs.Item.Growth
import LuaGloss.Proofs.Item.Ownership

/-!
# Declarations of one name

A name at the top level can be declared several times, as a local or as a global
variable.  Three records are kept of that: the first declaration of each name
among the globals and among the locals, all declarations of each name in their
order, and a mark on the first declaration of all.  Whatever is declared in
whatever order, the records agree with the items themselves.

A declaration with a number other than zero comes from the list of all
declarations.  Number zero is what the name means, and there a global variable
comes before a local one that was declared earlier.
-/

namespace LuaGloss

def Item.declares (item : Item) (name : Bytes) : Bool :=
  item.table?.isNone && item.isNamed name

namespace Declarations

def isLocalAt (d : Declarations) (id : ItemId) : Bool :=
  (d.item? id).any (·.isLocal)

def isGlobalAt (d : Declarations) (id : ItemId) : Bool :=
  (d.item? id).any (!·.isLocal)

def isPrimaryAt (d : Declarations) (id : ItemId) : Bool :=
  (d.item? id).any (·.isPrimary)

/-- The declarations of a name at the top level, in their order. -/
def declarationsOf (d : Declarations) (name : Bytes) : List ItemId :=
  (List.range d.items.size).filter fun id => (d.item? id).any (·.declares name)

theorem lt_of_mem_declarationsOf {d : Declarations} {name : Bytes} {id : ItemId}
    (h : id ∈ d.declarationsOf name) : id < d.items.size :=
  List.mem_range.1 (List.mem_filter.1 h).1

/-! ## Names without dots and colons -/

theorem normalize_of_not_mem {name : Bytes} (hcolon : Byte.colon ∉ name) :
    normalize name = name := by
  unfold normalize
  conv_rhs => rw [← List.map_id name]
  apply List.map_congr_left
  intro b hb
  have hne : b ≠ Byte.colon := fun heq => hcolon (heq ▸ hb)
  exact if_neg hne

theorem normalize_eq_iff {name other : Bytes} (hdot : Byte.dot ∉ name)
    (hcolon : Byte.colon ∉ name) : normalize other = name ↔ other = name := by
  constructor
  · intro h
    have hother : Byte.colon ∉ other := by
      intro hmem
      have hmapped :=
        List.mem_map_of_mem (f := fun b => if b = Byte.colon then Byte.dot
          else b) hmem
      rw [if_pos rfl] at hmapped
      exact hdot (h ▸ hmapped)
    rwa [normalize_of_not_mem hother] at h
  · intro h
    rw [h, normalize_of_not_mem hcolon]

theorem dot_mem_normalize_joinName (owner : Bytes) (item : Item) :
    Byte.dot ∈ normalize (joinName (some owner) item) := by
  have hsep :
      Byte.dot ∈ normalize (if item.isMethod then utf8 ":" else utf8 ".") := by
    cases item.isMethod <;> decide
  unfold joinName
  simp only [normalize, List.map_append, List.mem_append] at hsep ⊢
  exact .inl (.inr hsep)

/-- The full name of an item is a name without dots exactly if the item is a
declaration of it at the top level. -/
theorem fullName?_eq_some_iff {d : Declarations} {item : Item} {name : Bytes}
    (hdot : Byte.dot ∉ name) (hcolon : Byte.colon ∉ name) :
    d.fullName? item = some name ↔ item.declares name = true := by
  unfold fullName? Item.declares Item.isNamed
  by_cases hempty : item.name.isEmpty = true
  · simp [hempty]
  · rw [if_neg hempty]
    cases htable : item.table? with
    | none => simp [normalize_eq_iff hdot hcolon, hempty]
    | some table =>
        cases howner : d.ownerOf? item with
        | none => simp
        | some owner =>
            have hne :
                normalize (joinName (some (d.qualifiedName owner)) item) ≠
                  name := by
              intro heq
              exact hdot (heq ▸ dot_mem_normalize_joinName _ item)
            simpa using hne

/-! ## One more declaration -/

theorem any_item?_add (d : Declarations) (item : Item) (p : Item → Bool)
    {id : ItemId} (h : id < d.items.size) :
    ((d.add item).item? id).any p = (d.item? id).any p := by
  rw [item?_add, if_neg (Nat.ne_of_lt h)]

theorem any_item?_add_self (d : Declarations) (item : Item) (p : Item → Bool) :
    ((d.add item).item? d.items.size).any p = p (d.recorded item) := by
  rw [item?_add, if_pos rfl, Option.any_some]

theorem declarationsOf_add (d : Declarations) (item : Item) (name : Bytes) :
    (d.add item).declarationsOf name =
      d.declarationsOf name ++ if item.declares name = true then
        [d.items.size] else [] := by
  have hsame : (d.recorded item).declares name = item.declares name := rfl
  unfold declarationsOf
  rw [items_size_add, List.range_succ, List.filter_append]
  congr 1
  · apply List.filter_congr
    intro id hid
    exact d.any_item?_add item _ (List.mem_range.1 hid)
  · cases hdeclares : item.declares name <;>
      simp [any_item?_add_self, hsame, hdeclares]

theorem overloads_add (d : Declarations) (item : Item) {name : Bytes}
    (hdot : Byte.dot ∉ name) (hcolon : Byte.colon ∉ name) :
    (d.add item).overloads name =
      d.overloads name ++ if item.declares name = true then
        [d.items.size] else [] := by
  have hname : d.fullName? item = some name ↔ item.declares name = true :=
    fullName?_eq_some_iff hdot hcolon
  unfold overloads add
  rw [normalize_of_not_mem hcolon]
  dsimp only
  cases hfull : d.fullName? item with
  | none =>
      have hother : ¬item.declares name = true := by
        rw [← hname, hfull]
        simp
      rw [if_neg hother, List.append_nil]
  | some full =>
      rw [List.filter_append, List.map_append]
      congr 1
      by_cases heq : full = name
      · rw [hfull, heq] at hname
        rw [if_pos (hname.1 rfl), heq]
        simp
      · have hother : ¬item.declares name = true := by
          rw [← hname, hfull]
          simpa using heq
        rw [if_neg hother]
        simp [heq]

theorem lookup_registered (names : List (Bytes × ItemId)) (item : Item)
    (id : ItemId) (isKept : Bool) (name : Bytes) :
    (if item.table?.isNone && !item.name.isEmpty && isKept then
      register names item.name id else names).lookup name =
      if (item.declares name && isKept) = true then
        (names.lookup name).or (some id) else names.lookup name := by
  by_cases hname : item.name = name
  · have hsame : (item.table?.isNone && !item.name.isEmpty && isKept) =
        (item.declares name && isKept) := by
      simp [Item.declares, Item.isNamed, hname]
    rw [hsame]
    split
    · unfold register
      rw [hname]
      cases hlookup : names.lookup name <;> simp [List.lookup_append, hlookup]
    · rfl
  · have hother : ¬(item.declares name && isKept) = true := by
      simp [Item.declares, Item.isNamed, hname]
    rw [if_neg hother]
    split
    · unfold register
      split
      · rfl
      · have hne : (name == item.name) = false := by simpa using Ne.symm hname
        simp [List.lookup_append, List.lookup_cons, hne]
    · rfl

theorem find?_declarationsOf_add (d : Declarations) (item : Item) (name : Bytes)
    (p : Item → Bool) (hp : p (d.recorded item) = p item) :
    ((d.add item).declarationsOf name).find? (fun id =>
      ((d.add item).item? id).any p) =
      if (item.declares name && p item) = true then
        ((d.declarationsOf name).find? fun id => (d.item? id).any p).or
          (some d.items.size)
      else (d.declarationsOf name).find? fun id => (d.item? id).any p := by
  have hold :
      (d.declarationsOf name).find? (fun id => ((d.add item).item? id).any p) =
      (d.declarationsOf name).find? fun id => (d.item? id).any p := by
    rw [← List.head?_filter, ← List.head?_filter]
    congr 1
    apply List.filter_congr
    intro id hid
    exact d.any_item?_add item p (lt_of_mem_declarationsOf hid)
  rw [declarationsOf_add, List.find?_append, hold]
  cases hdeclares : item.declares name <;> cases hitem : p item <;>
    simp [any_item?_add_self, hp, hitem]

/-! ## The records -/

/-- The records of the declarations of a name are right. -/
structure Records (d : Declarations) (name : Bytes) : Prop where
  overloads : d.overloads name = d.declarationsOf name
  globals : d.globals.lookup name = (d.declarationsOf name).find? d.isGlobalAt
  locals : d.locals.lookup name = (d.declarationsOf name).find? d.isLocalAt
  primary : (d.declarationsOf name).filter d.isPrimaryAt =
    (d.declarationsOf name).take 1

namespace Records

variable {d d' : Declarations} {name : Bytes}

theorem empty (name : Bytes) : Records .empty name := by
  constructor <;> simp [Declarations.empty, declarationsOf, Declarations.overloads]

theorem primary_add (h : d.Records name) (hdot : Byte.dot ∉ name)
    (hcolon : Byte.colon ∉ name) (item : Item) :
    ((d.add item).declarationsOf name).filter (d.add item).isPrimaryAt =
      ((d.add item).declarationsOf name).take 1 := by
  have hold : (d.declarationsOf name).filter (d.add item).isPrimaryAt =
      (d.declarationsOf name).take 1 := by
    rw [← h.primary]
    apply List.filter_congr
    intro id hid
    exact d.any_item?_add item _ (lt_of_mem_declarationsOf hid)
  rw [declarationsOf_add, List.filter_append, hold]
  by_cases hdeclares : item.declares name = true
  · have hfull : d.fullName? item = some name :=
      (fullName?_eq_some_iff hdot hcolon).2 hdeclares
    have hmark : (d.add item).isPrimaryAt d.items.size =
        (d.declarationsOf name).isEmpty := by
      unfold isPrimaryAt
      rw [any_item?_add_self]
      simp [recorded, hfull, h.overloads]
    rw [if_pos hdeclares]
    cases hbefore : d.declarationsOf name with
    | nil => simp [hmark, hbefore]
    | cons first rest => simp [hmark, hbefore]
  · simp [hdeclares]

theorem add (h : d.Records name) (hdot : Byte.dot ∉ name)
    (hcolon : Byte.colon ∉ name) (item : Item) : (d.add item).Records name where
  overloads := by
    rw [overloads_add d item hdot hcolon, declarationsOf_add, h.overloads]
  globals := by
    have hfind := d.find?_declarationsOf_add item name (!·.isLocal) rfl
    have hlookup :=
      lookup_registered d.globals item d.items.size (!item.isLocal) name
    rw [h.globals] at hlookup
    exact hlookup.trans hfind.symm
  locals := by
    have hfind := d.find?_declarationsOf_add item name (·.isLocal) rfl
    have hlookup := lookup_registered d.locals item d.items.size item.isLocal name
    rw [h.locals] at hlookup
    exact hlookup.trans hfind.symm
  primary := h.primary_add hdot hcolon item

theorem modifyItem (h : d.Records name) (id : ItemId) {f : Item → Item}
    (hdeclares : ∀ item, (f item).declares name = item.declares name)
    (hlocal : ∀ item, (f item).isLocal = item.isLocal)
    (hprimary : ∀ item, (f item).isPrimary = item.isPrimary) :
    (d.modifyItem id f).Records name := by
  have hany (p : Item → Bool) (hp : ∀ item, p (f item) = p item) (other : ItemId) :
      ((d.modifyItem id f).item? other).any p = (d.item? other).any p := by
    rw [item?_modifyItem]
    split
    · cases d.item? other <;> simp [hp]
    · rfl
  have hlist :
      (d.modifyItem id f).declarationsOf name = d.declarationsOf name := by
    unfold declarationsOf
    rw [items_size_modifyItem]
    apply List.filter_congr
    intro other _
    exact hany _ hdeclares other
  have hglobals : (d.modifyItem id f).isGlobalAt = d.isGlobalAt :=
    funext fun other =>
      hany (!·.isLocal) (fun item => congrArg _ (hlocal item)) other
  have hlocals : (d.modifyItem id f).isLocalAt = d.isLocalAt :=
    funext fun other => hany (·.isLocal) hlocal other
  have hprimaries : (d.modifyItem id f).isPrimaryAt = d.isPrimaryAt :=
    funext fun other => hany (·.isPrimary) hprimary other
  constructor
  · rw [hlist]
    exact h.overloads
  · rw [hlist, hglobals]
    exact h.globals
  · rw [hlist, hlocals]
    exact h.locals
  · rw [hlist, hprimaries]
    exact h.primary

theorem event (h : d.Records name) (hdot : Byte.dot ∉ name)
    (hcolon : Byte.colon ∉ name) (hevent : d.Event d') : d'.Records name := by
  cases hevent with
  | source source => exact ⟨h.overloads, h.globals, h.locals, h.primary⟩
  | table owner => exact ⟨h.overloads, h.globals, h.locals, h.primary⟩
  | declare item => exact h.add hdot hcolon item
  | @init id item init _ _ =>
      apply h.modifyItem
      all_goals
        intro other
        unfold Item.withInit
        split <;> simp_all [Item.declares, Item.isNamed, Item.table?]
  | extend id pos =>
      apply h.modifyItem
      all_goals
        intro other
        unfold Recorder.extendInit
        split <;> simp_all [Item.declares, Item.isNamed, Item.table?]

end Records

/-- Whatever is declared, the records of a name without dots and colons are
right. -/
theorem Unfolds.records {d : Declarations} (h : Declarations.empty.Unfolds d)
    {name : Bytes} (hdot : Byte.dot ∉ name) (hcolon : Byte.colon ∉ name) :
    d.Records name := by
  induction h with
  | refl => exact .empty name
  | tail _ hevent ih => exact ih.event hdot hcolon hevent

/-! ## Declarations by number -/

theorem find_of_simple (d : Declarations) {name : Bytes}
    (hdot : Byte.dot ∉ name) (hcolon : Byte.colon ∉ name) :
    d.find name = d.lookup name := by
  unfold find findBy
  rw [normalize_of_not_mem hcolon, Bytes.splitOn_of_not_mem hdot]
  cases hlookup : d.lookup name <;> simp [memberBy, hlookup]

theorem isGlobalAt_eq_not_isLocalAt {d : Declarations} {name : Bytes}
    {id : ItemId} (h : id ∈ d.declarationsOf name) :
    d.isGlobalAt id = !d.isLocalAt id := by
  obtain ⟨item, hitem⟩ :=
    Option.isSome_iff_exists.1 (item?_isSome.2 (lt_of_mem_declarationsOf h))
  simp [isGlobalAt, isLocalAt, hitem]

/-- A name means its first global declaration; if there is none, its first
declaration. -/
theorem Records.lookup {d : Declarations} {name : Bytes} (h : d.Records name) :
    d.lookup name = ((d.declarationsOf name).find? d.isGlobalAt).or
      (d.declarationsOf name).head? := by
  unfold Declarations.lookup
  rw [h.globals, h.locals]
  cases hglobal : (d.declarationsOf name).find? d.isGlobalAt with
  | some id => rfl
  | none =>
      rw [Option.none_or, Option.none_or, ← List.head?_filter]
      congr 1
      apply List.filter_eq_self.2
      intro id hid
      have hnot := List.find?_eq_none.1 hglobal id hid
      rw [isGlobalAt_eq_not_isLocalAt hid] at hnot
      simpa using hnot

theorem Records.lookup_eq_first_iff {d : Declarations} {name : Bytes}
    (h : d.Records name) {first : ItemId}
    (hfirst : (d.declarationsOf name).head? = some first) :
    d.lookup name = some first ↔
      (d.isLocalAt first = true →
        ∀ id ∈ d.declarationsOf name, d.isLocalAt id = true) := by
  rw [h.lookup, hfirst]
  cases hfind : (d.declarationsOf name).find? d.isGlobalAt with
  | none =>
      have hall (id : ItemId) (hid : id ∈ d.declarationsOf name) :
          d.isLocalAt id = true := by
        have hnot := List.find?_eq_none.1 hfind id hid
        rw [isGlobalAt_eq_not_isLocalAt hid] at hnot
        simpa using hnot
      exact ⟨fun _ _ => hall, fun _ => rfl⟩
  | some global =>
      have hmem := List.mem_of_find?_eq_some hfind
      have hglobal := List.find?_some hfind
      have hnot : d.isLocalAt global = false := by
        rw [isGlobalAt_eq_not_isLocalAt hmem] at hglobal
        simpa using hglobal
      rw [Option.some_or, Option.some_inj]
      constructor
      · intro heq hlocal
        rw [← heq, hnot] at hlocal
        exact absurd hlocal Bool.false_ne_true
      · intro hall
        by_cases hlocal : d.isLocalAt first = true
        · have := hall hlocal global hmem
          rw [hnot] at this
          exact absurd this Bool.false_ne_true
        · have hfirst' : d.isGlobalAt first = true := by
            rw [isGlobalAt_eq_not_isLocalAt (List.mem_of_head? hfirst)]
            simpa using hlocal
          obtain ⟨rest, hlist⟩ := List.head?_eq_some_iff.1 hfirst
          rw [hlist, List.find?_cons_of_pos hfirst', Option.some_inj] at hfind
          exact hfind.symm

theorem nodup_declarationsOf (d : Declarations) (name : Bytes) :
    (d.declarationsOf name).Nodup :=
  List.nodup_range.filter _

/-- The declarations of a name without dots and colons are numbered from one on
in their order, and the first of all, and only this one, is marked.  Number zero
is the first global declaration if there is one, else the first declaration.  So
number zero is the declaration that is marked unless this is local and a later
one is global; and no other number leads to it. -/
theorem findOverload_numbers {d : Declarations}
    (h : Declarations.empty.Unfolds d) {name : Bytes} (hdot : Byte.dot ∉ name)
    (hcolon : Byte.colon ∉ name) :
    (∀ n : Nat, 0 < n → d.findOverload name n = (d.declarationsOf name)[n]?) ∧
      d.findOverload name 0 = ((d.declarationsOf name).find? d.isGlobalAt).or
        (d.declarationsOf name)[0]? ∧
      (d.declarationsOf name).filter d.isPrimaryAt =
        (d.declarationsOf name).take 1 ∧
      ∀ first, (d.declarationsOf name)[0]? = some first →
        (d.findOverload name 0 = some first ↔
          (d.isLocalAt first = true →
            ∀ id ∈ d.declarationsOf name, d.isLocalAt id = true)) ∧
        ∀ n : Nat, 0 < n → d.findOverload name n ≠ some first := by
  have hrecords := h.records hdot hcolon
  have hzero : d.findOverload name 0 = d.lookup name :=
    d.find_of_simple hdot hcolon
  have hlater (n : Nat) (hn : 0 < n) :
      d.findOverload name n = (d.declarationsOf name)[n]? := by
    rw [← hrecords.overloads]
    match n, hn with
    | n + 1, _ => rfl
  refine ⟨hlater, ?_, hrecords.primary, ?_⟩
  · rw [hzero, hrecords.lookup, List.head?_eq_getElem?]
  · intro first hfirst
    rw [hzero]
    refine ⟨hrecords.lookup_eq_first_iff (List.head?_eq_getElem?.trans hfirst), ?_⟩
    intro n hn heq
    rw [hlater n hn, ← hfirst] at heq
    have hsize : 0 < (d.declarationsOf name).length :=
      (List.getElem?_eq_some_iff.1 hfirst).1
    have := (List.getElem?_inj hsize (d.nodup_declarationsOf name)).1 heq.symm
    omega

/-- A local variable and then a global one of the same name: the first is
marked, and number zero is the second. -/
theorem findOverload_numbers_shadowed : let early : Item :=
  ⟨utf8 "x", utf8 "a.lua", ⟨6, 1, 1, 7⟩, true, false, .variable_ .none⟩
    let late : Item :=
  ⟨utf8 "x", utf8 "b.lua", ⟨0, 1, 1, 1⟩, false, false, .variable_ .none⟩
    let d := (Declarations.empty.add early).add late
    d.declarationsOf (utf8 "x") = [0, 1] ∧
      (d.declarationsOf (utf8 "x")).filter d.isPrimaryAt = [0] ∧
      d.findOverload (utf8 "x") 0 = some 1 ∧
      d.findOverload (utf8 "x") 1 = some 1 := by
  intro early late d
  have h : Declarations.empty.Unfolds d :=
    (Relation.ReflTransGen.single (.declare _ _)).tail (.declare _ _)
  have hdot : Byte.dot ∉ utf8 "x" := by decide
  have hnumbers := findOverload_numbers h hdot (by decide)
  have hlist : d.declarationsOf (utf8 "x") = [0, 1] := by decide +kernel
  have hglobal : [0, 1].find? d.isGlobalAt = some 1 := by decide +kernel
  obtain ⟨hlater, hzero, hprimary, -⟩ := hnumbers
  rw [hlist] at hlater hzero hprimary ⊢
  exact ⟨rfl, hprimary, hzero.trans (by rw [hglobal]; rfl), hlater 1 (by decide)⟩

end Declarations

end LuaGloss

import LuaGloss.Proofs.Docs.RefId

/-!
# The first free id

The plain way to give out an id tries the name itself and then the name with the
numbers two, three and so on, until one is free.  The documentation keeps a
counter for each name instead and goes on from there.  Both come to the same,
because every number up to the counter of a name is taken, whoever took it: a
name may look like the numbered form of another.
-/

namespace LuaGloss

namespace Docs

/-- What a plain search gives: the name if it is free, else the name with the
least number under which it is. -/
def IsFirstFree (taken : List Bytes) (name id : Bytes) : Prop :=
  if name ∈ taken then
    ∃ n, 2 ≤ n ∧ id = numberedId name n ∧ id ∉ taken ∧ ∀ m, 2 ≤ m → m < n →
      numberedId name m ∈ taken
  else id = name

/-- Asks for ids one after the other. -/
def freshIds (d : Docs) : List Bytes → List Bytes × Docs
  | [] => ([], d)
  | name :: names =>
    let (id, d) := d.freshId name
    let (ids, d) := freshIds d names
    (id :: ids, d)

/-! ## Counters -/

def Counted (used : List (Bytes × Nat)) : Prop :=
  ∀ name count, used.lookup name = some count →
    1 ≤ count ∧ ∀ m, 2 ≤ m → m ≤ count → isUsed used (numberedId name m) = true

theorem counted_empty : Counted empty.usedIds := by
  intro name count h
  have hcount : count = 1 := by
    have hname : name = globalId := by
      by_contra hne
      have hother : (name == globalId) = false := by simpa using hne
      simp [empty, List.lookup_cons, hother] at h
    simpa [empty, hname] using h.symm
  constructor
  · omega
  · intro m hm hle
    omega

theorem firstFree_spec (used : List (Bytes × Nat)) (name : Bytes) (start : Nat) :
    start ≤ firstFree used name start ∧
      ∀ m, start ≤ m → m < firstFree used name start →
      isUsed used (numberedId name m) = true := by
  unfold firstFree
  cases hfind : (List.range' start (used.length + 1)).find? fun n =>
    !isUsed used (numberedId name n) with
  | none =>
      obtain ⟨n, hn, hfree⟩ := exists_free used name start
      have hused := List.find?_eq_none.1 hfind n hn
      simp [hfree] at hused
  | some n =>
      obtain ⟨-, hmem, hbefore⟩ := List.find?_range'_eq_some.1 hfind
      constructor
      · exact (List.mem_range'_1.1 hmem).1
      · intro m hm hlt
        simpa using hbefore m hm hlt

theorem Counted.recount {used : List (Bytes × Nat)} (h : Counted used)
    {name : Bytes} {count : Nat} (hcount : used.lookup name = some count) :
    let n := firstFree used name (count + 1)
    (∀ m, 2 ≤ m → m < n → isUsed used (numberedId name m) = true) ∧
      Counted ((numberedId name n, 1) :: (name, n) ::
        used.filter (·.1 != name)) := by
  intro n
  obtain ⟨hpos, hbelow⟩ := h name count hcount
  obtain ⟨hstart, hsearched⟩ := firstFree_spec used name (count + 1)
  have hfirst (m : Nat) (hm : 2 ≤ m) (hlt : m < n) :
      isUsed used (numberedId name m) = true := by
    by_cases hle : m ≤ count
    · exact hbelow m hm hle
    · exact hsearched m (by omega) hlt
  have hused (other : Bytes) (hother : isUsed used other = true) :
      isUsed ((numberedId name n, 1) :: (name, n) :: used.filter (·.1 != name))
        other = true := by
    rw [isUsed_cons, isUsed_cons]
    by_cases hname : other = name
    · simp [hname]
    · rw [isUsed_filter_ne used hname, hother]
      simp
  refine ⟨hfirst, ?_⟩
  intro other c hc
  rw [List.lookup_cons] at hc
  split at hc
  next hnew =>
    -- The id that is given out starts to count.
    have hone : c = 1 := (Option.some.inj hc).symm
    exact ⟨by omega, fun m hm hle => by omega⟩
  next =>
    by_cases hname : other = name
    · have hn : n = c := by simpa [hname, List.lookup_cons] using hc
      refine ⟨by omega, fun m hm hle => ?_⟩
      rw [hname]
      by_cases hlast : m = n
      · simp [hlast, isUsed_cons]
      · exact hused _ (hfirst m hm (by omega))
    · have hother : (other == name) = false := by simpa using hname
      have hold : used.lookup other = some c := by
        simpa [List.lookup_cons, hother, lookup_filter_ne used hname] using hc
      obtain ⟨hone, htaken⟩ := h other c hold
      exact ⟨hone, fun m hm hle => hused _ (htaken m hm hle)⟩

theorem Counted.start {used : List (Bytes × Nat)} (h : Counted used)
    (name : Bytes) : Counted ((name, 1) :: used) := by
  intro other c hc
  by_cases hname : other = name
  · have hone : 1 = c := by simpa [hname, List.lookup_cons] using hc
    exact ⟨by omega, fun m hm hle => by omega⟩
  · have hother : (other == name) = false := by simpa using hname
    have hold : used.lookup other = some c := by
      simpa [List.lookup_cons, hother] using hc
    obtain ⟨hone, htaken⟩ := h other c hold
    refine ⟨hone, fun m hm hle => ?_⟩
    rw [isUsed_cons, htaken m hm hle, Bool.or_true]

/-! ## The search -/

variable {d : Docs}

/-- One id: what is given out is what a plain search gives, and the counters
stay right. -/
theorem Counted.freshId (h : Counted d.usedIds) {taken : List Bytes}
    (htaken : ∀ id, isUsed d.usedIds id = true ↔ id ∈ taken) (name : Bytes) :
    IsFirstFree taken name (d.freshId name).1 ∧
    Counted (d.freshId name).2.usedIds := by
  unfold Docs.freshId
  cases hcount : d.usedIds.lookup name with
  | none =>
      have hfree : name ∉ taken := by
        rw [← htaken]
        simp [isUsed, hcount]
      exact ⟨by simp [IsFirstFree, hfree], h.start name⟩
  | some count =>
      have hmem : name ∈ taken := by
        rw [← htaken]
        simp [isUsed, hcount]
      obtain ⟨hfirst, hcounted⟩ := h.recount hcount
      refine ⟨?_, hcounted⟩
      unfold IsFirstFree
      rw [if_pos hmem]
      refine ⟨firstFree d.usedIds name (count + 1), ?_, rfl, ?_, ?_⟩
      · have hstart := (firstFree_spec d.usedIds name (count + 1)).1
        have hpos := (h name count hcount).1
        omega
      · rw [← htaken, isUsed_firstFree]
        simp
      · intro m hm hlt
        exact (htaken _).1 (hfirst m hm hlt)

theorem mem_taken_freshId {taken : List Bytes}
    (htaken : ∀ id, isUsed d.usedIds id = true ↔ id ∈ taken) (name id : Bytes) :
    isUsed (d.freshId name).2.usedIds id = true ↔
      id ∈ taken ++ [(d.freshId name).1] := by
  rw [(d.freshId_fresh name).used, Bool.or_eq_true, beq_iff_eq, htaken,
    List.mem_append, List.mem_singleton, or_comm]

theorem length_freshIds (d : Docs) (names : List Bytes) :
    (d.freshIds names).1.length = names.length := by
  induction names generalizing d with
  | nil => rfl
  | cons name names ih => simp [freshIds, ih]

/-- A sequence of ids: each is what a plain search gives after the ones
before. -/
theorem Counted.freshIds (h : Counted d.usedIds) {taken : List Bytes}
    (htaken : ∀ id, isUsed d.usedIds id = true ↔ id ∈ taken)
    (names : List Bytes) :
    ∀ i name, names[i]? = some name →
      ∃ id, (d.freshIds names).1[i]? = some id ∧
      IsFirstFree (taken ++ (d.freshIds names).1.take i) name id := by
  induction names generalizing d taken with
  | nil => simp
  | cons first names ih =>
      obtain ⟨hfirst, hcounted⟩ := h.freshId htaken first
      have hrest := ih hcounted (mem_taken_freshId htaken first)
      intro i name hname
      cases i with
      | zero =>
          obtain rfl : first = name := by simpa using hname
          exact ⟨(d.freshId first).1, rfl, by simpa using hfirst⟩
      | succ i =>
          obtain ⟨id, hid, hsearch⟩ := hrest i name (by simpa using hname)
          rw [List.append_assoc] at hsearch
          exact ⟨id, hid, hsearch⟩

theorem nodup_freshIds {taken : List Bytes}
    (htaken : ∀ id, isUsed d.usedIds id = true ↔ id ∈ taken)
    (names : List Bytes) :
    (d.freshIds names).1.Nodup ∧ ∀ id ∈ (d.freshIds names).1, id ∉ taken := by
  induction names generalizing d taken with
  | nil => simp [freshIds]
  | cons first names ih =>
      obtain ⟨hnodup, hfree⟩ := ih (mem_taken_freshId htaken first)
      have hnew : (d.freshId first).1 ∉ taken := by
        rw [← htaken, (d.freshId_fresh first).free]
        simp
      have hself :
          (d.freshId first).1 ∉ ((d.freshId first).2.freshIds names).1 := by
        intro hmem
        exact hfree _ hmem (List.mem_append_right _ List.mem_cons_self)
      constructor
      · exact List.nodup_cons.2 ⟨hself, hnodup⟩
      · intro id hid
        rcases List.mem_cons.1 hid with rfl | hlater
        · exact hnew
        · exact fun hmem => hfree id hlater (List.mem_append_left _ hmem)

/-- Whatever names are asked for, each id is the one that a plain search gives,
where the id of the page of global members and all ids given out before are
taken.  So no id is given out twice, and that one never. -/
theorem freshIds_search (names : List Bytes) :
    let ids := (empty.freshIds names).1
    ids.length = names.length ∧
      (∀ i name, names[i]? = some name →
        ∃ id, ids[i]? = some id ∧ IsFirstFree (globalId :: ids.take i) name id) ∧
      ids.Nodup ∧ globalId ∉ ids := by
  intro ids
  have htaken (id : Bytes) : isUsed empty.usedIds id = true ↔ id ∈ [globalId] := by
    rw [isUsed_iff]
    rfl
  obtain ⟨hnodup, hfree⟩ := nodup_freshIds htaken names
  refine ⟨length_freshIds _ _, counted_empty.freshIds htaken names, hnodup, ?_⟩
  intro hmem
  exact hfree globalId hmem (by simp)

private def suffixedNames : List Bytes :=
  [utf8 "bar_2", utf8 "bar", utf8 "bar", utf8 "bar_2", utf8 "bar_2_2",
    utf8 "bar", utf8 "global"]

/-- The counter of the name goes from one to three, since the second number is
taken, and then to four. -/
theorem freshIds_search_suffixed :
    (empty.freshIds suffixedNames).1 =
        [utf8 "bar_2", utf8 "bar", utf8 "bar_3", utf8 "bar_2_2",
          utf8 "bar_2_2_2", utf8 "bar_4", utf8 "global_2"] ∧
      (empty.freshIds suffixedNames).1.Nodup ∧
      IsFirstFree (globalId :: (empty.freshIds suffixedNames).1.take 5)
        (utf8 "bar") (utf8 "bar_4") := by
  have hids : (empty.freshIds suffixedNames).1 =
      [utf8 "bar_2", utf8 "bar", utf8 "bar_3", utf8 "bar_2_2", utf8 "bar_2_2_2",
        utf8 "bar_4", utf8 "global_2"] := by
    decide +kernel
  obtain ⟨-, hsearch, hnodup, -⟩ := freshIds_search suffixedNames
  obtain ⟨id, hid, hfirst⟩ := hsearch 5 (utf8 "bar") rfl
  have hbar : id = utf8 "bar_4" := by simpa [hids] using hid.symm
  rw [hbar] at hfirst
  exact ⟨hids, hnodup, hfirst⟩

end Docs

end LuaGloss

import LuaGloss.Proofs.Docs.Links
import Mathlib.Data.List.Nodup
import Mathlib.Data.List.Perm.Subperm

/-!
# Reference ids

A reference id that is given out has not been in use before, and from then on it
is.  If the name that is asked for is taken, one of its numbered forms is free,
because there are more of them in the range of the search than ids in use.  Ids
consist of lower-case letters, digits and underscores.
-/

namespace LuaGloss

/-! ## Numbers as texts -/

namespace Bytes

theorem ofNat_of_lt {n : Nat} (h : n < 10) : ofNat n = [n.digitChar.toUInt8] := by
  simp [ofNat, Nat.toDigits_of_lt_base h]

theorem ofNat_of_le {n : Nat} (h : 10 ≤ n) :
    ofNat n = ofNat (n / 10) ++ [(n % 10).digitChar.toUInt8] := by
  simp [ofNat, Nat.toDigits_of_base_le (by omega) h]

theorem digitValue_digitChar (n : Fin 10) :
    Byte.digitValue (Nat.digitChar n).toUInt8 = n := by
  decide +revert

theorem isDigit_digitChar (n : Fin 10) :
    Byte.isDigit (Nat.digitChar n).toUInt8 = true := by
  decide +revert

theorem toNat_append_singleton (radix : Nat) (digits : Bytes) (b : UInt8) :
    toNat radix (digits ++ [b]) = toNat radix digits * radix +
      Byte.digitValue b := by
  simp [toNat]

theorem toNat_ofNat (n : Nat) : toNat 10 (ofNat n) = n := by
  induction n using Nat.strongRecOn with
  | _ n ih =>
      by_cases hlt : n < 10
      · rw [ofNat_of_lt hlt]
        simpa [toNat] using digitValue_digitChar ⟨n, hlt⟩
      · have hle : 10 ≤ n := by omega
        have hdigit := digitValue_digitChar ⟨n % 10, Nat.mod_lt _ (by omega)⟩
        rw [ofNat_of_le hle, toNat_append_singleton,
          ih (n / 10) (by omega), hdigit]
        exact Nat.div_add_mod' n 10

theorem ofNat_injective {m n : Nat} (h : ofNat m = ofNat n) : m = n := by
  rw [← toNat_ofNat m, h, toNat_ofNat]

theorem all_isDigit_ofNat (n : Nat) : (ofNat n).all Byte.isDigit = true := by
  induction n using Nat.strongRecOn with
  | _ n ih =>
      by_cases hlt : n < 10
      · rw [ofNat_of_lt hlt]
        simpa using isDigit_digitChar ⟨n, hlt⟩
      · have hle : 10 ≤ n := by omega
        have hdigit := isDigit_digitChar ⟨n % 10, Nat.mod_lt _ (by omega)⟩
        rw [ofNat_of_le hle, List.all_append, ih (n / 10) (by omega)]
        simpa using hdigit

end Bytes

/-! ## Bytes of ids -/

namespace Xml

def isIdByte (b : UInt8) : Bool :=
  Byte.isLower b || Byte.isDigit b || b == Byte.underscore

def isId (s : Bytes) : Bool := s.all isIdByte

theorem isId_append (s t : Bytes) : isId (s ++ t) = (isId s && isId t) := by
  simp [isId]

theorem isIdByte_idByte (b : UInt8) : isIdByte (idByte b) = true := by
  have h : ∀ b : Fin 256, isIdByte (idByte (UInt8.ofNat b)) = true := by
    decide +kernel
  simpa using h ⟨b.toNat, b.toNat_lt⟩

theorem isId_idText (s : Bytes) : isId (idText s) = true := by
  simp [isId, idText, isIdByte_idByte]

theorem isId_ofNat (n : Nat) : isId (Bytes.ofNat n) = true := by
  have h := Bytes.all_isDigit_ofNat n
  unfold isId
  rw [List.all_eq_true] at h ⊢
  intro b hb
  simp [isIdByte, h b hb]

end Xml

/-! ## Ids that are free -/

namespace Docs

theorem isUsed_iff {used : List (Bytes × Nat)} {name : Bytes} :
    isUsed used name = true ↔ name ∈ used.map Prod.fst := by
  simp [isUsed, List.lookup_isSome_iff]

theorem numberedId_injective {name : Bytes} {m n : Nat}
    (h : numberedId name m = numberedId name n) : m = n := by
  unfold numberedId at h
  exact Bytes.ofNat_injective (List.append_cancel_left h)

theorem isId_numberedId {name : Bytes} (h : Xml.isId name = true) (n : Nat) :
    Xml.isId (numberedId name n) = true := by
  unfold numberedId
  rw [Xml.isId_append, Xml.isId_append, h, Xml.isId_ofNat]
  decide

/-- Not all of the numbers that are tried can be taken. -/
theorem exists_free (used : List (Bytes × Nat)) (name : Bytes) (start : Nat) :
    ∃ n ∈ List.range' start (used.length + 1),
      isUsed used (numberedId name n) = false := by
  by_contra hall
  have hused : ∀ n ∈ List.range' start (used.length + 1), numberedId name n ∈
      used.map Prod.fst := by
    intro n hn
    rw [← isUsed_iff]
    by_contra hfree
    exact hall ⟨n, hn, by simpa using hfree⟩
  have hnodup :
      ((List.range' start (used.length + 1)).map (numberedId name)).Nodup :=
    List.Nodup.map (fun _ _ => numberedId_injective) List.nodup_range'
  have hsubset : (List.range' start (used.length + 1)).map (numberedId name) ⊆
      used.map Prod.fst := by
    intro id hid
    obtain ⟨n, hn, rfl⟩ := List.mem_map.1 hid
    exact hused n hn
  have hlength := (List.subperm_of_subset hnodup hsubset).length_le
  simp only [List.length_map, List.length_range'] at hlength
  omega

theorem isUsed_firstFree (used : List (Bytes × Nat)) (name : Bytes) (start : Nat) :
    isUsed used (numberedId name (firstFree used name start)) = false := by
  obtain ⟨n, hn, hfree⟩ := exists_free used name start
  unfold firstFree
  cases hfind : (List.range' start (used.length + 1)).find? fun n =>
    !isUsed used (numberedId name n) with
  | none =>
      have hused := List.find?_eq_none.1 hfind n hn
      simp [hfree] at hused
  | some first => simpa using List.find?_some hfind

theorem isUsed_cons (entry : Bytes × Nat) (used : List (Bytes × Nat))
    (name : Bytes) :
    isUsed (entry :: used) name = (name == entry.1 || isUsed used name) := by
  unfold isUsed
  rw [List.lookup_cons]
  cases hname : name == entry.1 <;> simp

theorem isUsed_filter_ne (used : List (Bytes × Nat)) {name other : Bytes}
    (h : other ≠ name) :
    isUsed (used.filter (·.1 != name)) other = isUsed used other := by
  unfold isUsed
  rw [lookup_filter_ne used h]

/-- What giving out an id does. -/
structure Fresh (d : Docs) (name id : Bytes) (d' : Docs) : Prop where
  free : isUsed d.usedIds id = false
  used : ∀ other, isUsed d'.usedIds other = (other == id || isUsed d.usedIds other)
  rest : d' = { d with usedIds := d'.usedIds }
  isId : Xml.isId name = true → Xml.isId id = true

theorem freshId_fresh (d : Docs) (name : Bytes) :
    d.Fresh name (d.freshId name).1 (d.freshId name).2 := by
  unfold freshId
  split
  next hnone =>
    refine ⟨by simp [isUsed, hnone], ?_, rfl, id⟩
    intro other
    exact isUsed_cons (name, 1) d.usedIds other
  next count hsome =>
    have hname : isUsed d.usedIds name = true := by simp [isUsed, hsome]
    refine ⟨isUsed_firstFree _ _ _, ?_, rfl, fun h => isId_numberedId h _⟩
    intro other
    rw [isUsed_cons, isUsed_cons]
    by_cases hother : other = name
    · simp [hother, hname]
    · have hne : (other == name) = false := by simpa using hother
      rw [isUsed_filter_ne _ hother, hne, Bool.false_or]

end Docs

end LuaGloss

import LuaGloss.Files.Tree
import LuaGloss.Proofs.Docs.Links

/-!
# Writing the same files again

Where a path leads depends on directories only.  Writing files makes no
directories and takes none away, so the same paths lead to the same places when
the files are written again, and in the end every place holds what it held
before.
-/

namespace LuaGloss

theorem exists_of_foldlM_cons {f : β → α → Except ε β} {a : α} {as : List α}
    {b b'' : β} (h : (a :: as).foldlM f b = .ok b'') :
    ∃ b', f b a = .ok b' ∧ as.foldlM f b' = .ok b'' := by
  rw [List.foldlM_cons] at h
  cases hfirst : f b a with
  | error e =>
      rw [hfirst] at h
      exact nomatch h
  | ok b' =>
      rw [hfirst] at h
      exact ⟨b', rfl, h⟩

namespace FileTree

def writeAll (t : FileTree) (files : List (Bytes × Bytes)) :
    Except FileError FileTree :=
  files.foldlM (fun t file => t.write file.1 file.2) t

theorem writeAll_append {t t' t'' : FileTree}
    {files files' : List (Bytes × Bytes)} (h : t.writeAll files = .ok t')
    (h' : t'.writeAll files' = .ok t'') :
    t.writeAll (files ++ files') = .ok t'' := by
  unfold writeAll at h h' ⊢
  rw [List.foldlM_append, h]
  exact h'

theorem writeAll_singleton {t t' : FileTree} {file : Bytes × Bytes}
    (h : t.write file.1 file.2 = .ok t') : t.writeAll [file] = .ok t' := by
  unfold writeAll
  rw [List.foldlM_cons, h]
  rfl

theorem find_eq_ok {t : FileTree} {path : Bytes} {entry : FileEntry} :
    t.find path = .ok entry ↔ ∃ place, t.locate path = .ok place ∧
    t.entry? place = some entry := by
  unfold find
  cases t.locate path with
  | error fault =>
      constructor
      · exact nofun
      · exact nofun
  | ok place =>
      cases hplace : t.entry? place with
      | none =>
          simp [bind, Except.bind, throw, throwThe, MonadExceptOf.throw, hplace]
      | some other => simp [bind, Except.bind, pure, Except.pure, hplace]

/-- Every place holds the same in both trees. -/
def Same (t t' : FileTree) : Prop := ∀ place, t.entry? place = t'.entry? place

def Below (t t' : FileTree) : Prop :=
  ∀ place, t.entry? place = some .directory → t'.entry? place = some .directory

namespace Below

variable {t t' t'' : FileTree}

theorem refl (t : FileTree) : t.Below t := fun _ h => h

theorem trans (h : t.Below t') (h' : t'.Below t'') : t.Below t'' :=
  fun place hplace => h' place (h place hplace)

theorem follow (h : t.Below t') {here place : List Bytes} {names : List Bytes}
    (hfollow : t.follow here names = .ok place) :
    t'.follow here names = .ok place := by
  induction names generalizing here with
  | nil => exact hfollow
  | cons name names ih =>
      rw [FileTree.follow] at hfollow ⊢
      split at hfollow
      · exact nomatch hfollow
      · exact nomatch hfollow
      next hhere =>
        rw [h here hhere]
        dsimp only
        split at hfollow
        next hstay => rw [if_pos hstay]; exact ih hfollow
        next hmove =>
          rw [if_neg hmove]
          split at hfollow
          next hup => rw [if_pos hup]; exact ih hfollow
          next hdown =>
            rw [if_neg hdown]
            split at hfollow
            · exact nomatch hfollow
            next hshort => rw [if_neg hshort]; exact ih hfollow

theorem locate (h : t.Below t') {path : Bytes} {place : List Bytes}
    (hlocate : t.locate path = .ok place) : t'.locate path = .ok place := by
  unfold FileTree.locate at hlocate ⊢
  split at hlocate
  · exact nomatch hlocate
  next hvalid =>
    rw [if_neg hvalid]
    split at hlocate
    · exact nomatch hlocate
    next hempty =>
      rw [if_neg hempty]
      split at hlocate
      · exact nomatch hlocate
      next hshort =>
        rw [if_neg hshort]
        exact h.follow hlocate

theorem find_directory (h : t.Below t') {path : Bytes}
    (hfind : t.find path = .ok .directory) : t'.find path = .ok .directory := by
  obtain ⟨place, hlocate, hplace⟩ := find_eq_ok.1 hfind
  exact find_eq_ok.2 ⟨place, h.locate hlocate, h place hplace⟩

end Below

theorem entry?_set {t : FileTree} {place : List Bytes}
    (hplace : isGiven place = false) (entry : FileEntry) (other : List Bytes) :
    entry? (t.set place entry) other = if other = place then
      some entry else t.entry? other := by
  unfold entry? set
  rw [List.lookup_append]
  by_cases heq : other = place
  · have hnone : (t.entries.filter (·.1 != place)).lookup place = none := by
      rw [List.lookup_eq_none_iff]
      intro e he
      have hother : e.1 ≠ place := by simpa using (List.mem_filter.1 he).2
      simpa using hother.symm
    rw [heq, if_pos rfl, hplace, hnone]
    simp
  · have hskip : (other == place) = false := by simpa using heq
    rw [if_neg heq, Docs.lookup_filter_ne t.entries heq, List.lookup_cons, hskip]
    simp

theorem isGiven_eq_false {t : FileTree} {place : List Bytes}
    (h : t.entry? place ≠ some .directory) : isGiven place = false := by
  rw [← Bool.not_eq_true]
  intro hgiven
  exact h (if_pos hgiven)

/-- What writing a file does: a place that is no directory holds the file, and
all others are as they were. -/
theorem write_cases {t t' : FileTree} {path content : Bytes}
    (h : t.write path content = .ok t') :
    ∃ place, t.locate path = .ok place ∧ t.entry? place ≠ some .directory ∧
      ∀ other, t'.entry? other = if other = place then some (.file content) else
        t.entry? other := by
  unfold write at h
  split at h
  · exact nomatch h
  next place hlocate =>
    split at h
    · exact nomatch h
    next hfile =>
      have hentry : t.entry? place ≠ some .directory := hfile
      obtain rfl := Except.ok.inj h
      exact ⟨place, hlocate, hentry, entry?_set (isGiven_eq_false hentry) _⟩

theorem below_write {t t' : FileTree} {path content : Bytes}
    (h : t.write path content = .ok t') : t.Below t' ∧ t'.Below t := by
  obtain ⟨place, -, hfile, hentries⟩ := write_cases h
  constructor
  · intro other hother
    have hdiffer : other ≠ place := fun heq => hfile (heq ▸ hother)
    rw [hentries, if_neg hdiffer, hother]
  · intro other hother
    rw [hentries] at hother
    split at hother
    · exact nomatch hother
    · exact hother

theorem below_writeAll {t t' : FileTree} {files : List (Bytes × Bytes)}
    (h : t.writeAll files = .ok t') : t.Below t' ∧ t'.Below t := by
  induction files generalizing t with
  | nil =>
      obtain rfl := Except.ok.inj h
      exact ⟨.refl _, .refl _⟩
  | cons file files ih =>
      obtain ⟨first, hfirst, hrest⟩ := exists_of_foldlM_cons h
      obtain ⟨hkept, hback⟩ := below_write hfirst
      obtain ⟨hkept', hback'⟩ := ih hrest
      exact ⟨hkept.trans hkept', hback'.trans hback⟩

/-- Files that are written to two trees with the same directories end up in the
same places.  A place to which nothing is written stays as it is in both
trees. -/
theorem entry?_writeAll {t t' u u' : FileTree} {files : List (Bytes × Bytes)}
    (htu : t.Below u) (hut : u.Below t) (ht : t.writeAll files = .ok t')
    (hu : u.writeAll files = .ok u') (place : List Bytes) :
    u'.entry? place = t'.entry? place ∨ t'.entry? place = t.entry? place ∧
    u'.entry? place = u.entry? place := by
  induction files generalizing t u with
  | nil =>
      obtain rfl := Except.ok.inj ht
      obtain rfl := Except.ok.inj hu
      exact .inr ⟨rfl, rfl⟩
  | cons file files ih =>
      obtain ⟨t₁, hfirst, hrest⟩ := exists_of_foldlM_cons ht
      obtain ⟨u₁, hfirst', hrest'⟩ := exists_of_foldlM_cons hu
      obtain ⟨hkept, hback⟩ := below_write hfirst
      obtain ⟨hkept', hback'⟩ := below_write hfirst'
      obtain ⟨written, hlocate, -, hentries⟩ := write_cases hfirst
      obtain ⟨written', hlocate', -, hentries'⟩ := write_cases hfirst'
      obtain rfl : written = written' :=
        Except.ok.inj ((htu.locate hlocate).symm.trans hlocate')
      rcases ih ((hback.trans htu).trans hkept')
        ((hback'.trans hut).trans hkept) hrest hrest' with hsame | ⟨hold, hold'⟩
      · exact .inl hsame
      · rw [hold, hold', hentries, hentries']
        by_cases hplace : place = written
        · simp [hplace]
        · simp [hplace]

/-! ## Directories -/

theorem makeDirectory_again {t : FileTree} {path : Bytes} {place : List Bytes}
    (hlocate : t.locate (Bytes.trimRight (· == Byte.slash) path) = .ok place)
    (hplace : t.entry? place = some .directory) :
    t.makeDirectory path = .ok t := by
  unfold makeDirectory
  rw [hlocate]
  dsimp only
  rw [hplace]

theorem makeDirectory_cases {t t' : FileTree} {path : Bytes}
    (h : t.makeDirectory path = .ok t') :
    t.Below t' ∧
      ∃ place, t'.locate (Bytes.trimRight (· == Byte.slash) path) = .ok place ∧
      t'.entry? place = some .directory := by
  unfold makeDirectory at h
  split at h
  · exact nomatch h
  next place hlocate =>
    split at h
    next hnone =>
      have hgiven : isGiven place = false :=
        isGiven_eq_false (t := t) (by simp [hnone])
      have hentries (other : List Bytes) :=
        entry?_set hgiven (t := t) .directory other
      obtain rfl := Except.ok.inj h
      have hbelow : t.Below (t.set place .directory) := by
        intro other hother
        rw [hentries]
        split
        · rfl
        · exact hother
      exact ⟨hbelow, place, hbelow.locate hlocate,
        (hentries place).trans (if_pos rfl)⟩
    next hdirectory =>
      obtain rfl := Except.ok.inj h
      exact ⟨.refl t, place, hlocate, hdirectory⟩
    · exact nomatch h

theorem foldlM_makeDirectory_again {t made u : FileTree} {paths : List Bytes}
    (h : paths.foldlM makeDirectory t = .ok made) (hbelow : made.Below u) :
    t.Below made ∧ paths.foldlM makeDirectory u = .ok u := by
  induction paths generalizing t with
  | nil =>
      obtain rfl := Except.ok.inj h
      exact ⟨.refl _, rfl⟩
  | cons path paths ih =>
      obtain ⟨t₁, hfirst, hrest⟩ := exists_of_foldlM_cons h
      obtain ⟨hkept, place, hlocate, hplace⟩ := makeDirectory_cases hfirst
      obtain ⟨hkept', hagain⟩ := ih hrest
      have hfrom : t₁.Below u := hkept'.trans hbelow
      refine ⟨hkept.trans hkept', ?_⟩
      rw [List.foldlM_cons,
        makeDirectory_again (hfrom.locate hlocate) (hfrom place hplace)]
      exact hagain

theorem makeDirectories_again {t made u u' : FileTree} {path : Bytes}
    (h : t.makeDirectories path = .ok made) (hbelow : made.Below u)
    (h' : u.makeDirectories path = .ok u') : u' = u := by
  unfold makeDirectories at h h'
  split at h
  next hfind =>
    obtain rfl := Except.ok.inj h
    rw [hbelow.find_directory hfind] at h'
    exact (Except.ok.inj h').symm
  · exact nomatch h
  next =>
    split at h'
    · exact (Except.ok.inj h').symm
    · exact nomatch h'
    next =>
      rw [(foldlM_makeDirectory_again h hbelow).2] at h'
      exact (Except.ok.inj h').symm

/-- Making the same directories and writing the same files once more changes
nothing. -/
theorem same_again {t made t' made' t'' : FileTree} {directory : Bytes}
    {files : List (Bytes × Bytes)}
    (hmade : t.makeDirectories directory = .ok made)
    (h : made.writeAll files = .ok t')
    (hmade' : t'.makeDirectories directory = .ok made')
    (h' : made'.writeAll files = .ok t'') : t''.Same t' := by
  intro place
  obtain ⟨hkept, hback⟩ := below_writeAll h
  obtain rfl := makeDirectories_again hmade hkept hmade'
  rcases entry?_writeAll hkept hback h h' place with hsame | ⟨-, hold⟩
  · exact hsame
  · exact hold

end FileTree

end LuaGloss

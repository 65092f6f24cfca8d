import LuaGloss.Proofs.Token.Delimiting
import Mathlib.Data.Int.Bitwise

/-!
# Streams under masks

Tokens that a mask leaves out are scanned like all others.  So a mask is a
filter of the tokens on all channels, wherever the stream stands; to take some
tokens one by one and then the rest makes no difference; and whatever has been
asked of a stream, it can go back to the start.
-/

namespace LuaGloss

/-! ## Channels as bits -/

theorem land_ne_zero_iff (a : Nat) (m : Int) :
    Int.land a m ≠ 0 ↔ ∃ i, a.testBit i = true ∧ m.testBit i = true := by
  obtain ⟨k, hk⟩ : ∃ k : Nat, Int.land a m = k := by
    cases m with
    | ofNat n => exact ⟨a &&& n, rfl⟩
    | negSucc n => exact ⟨Nat.ldiff a n, rfl⟩
  have hbit (i : Nat) : k.testBit i = (a.testBit i && m.testBit i) := by
    have h := Int.testBit_land a m i
    rw [hk] at h
    exact h
  rw [hk]
  constructor
  · intro hne
    obtain ⟨i, hi⟩ := Nat.exists_testBit_of_ne_zero (by simpa using hne)
    rw [hbit, Bool.and_eq_true] at hi
    exact ⟨i, hi⟩
  · rintro ⟨i, hi⟩ hzero
    have : k = 0 := by simpa using hzero
    have hset := hbit i
    simp [this, hi] at hset

theorem Channel.testBit_number (channel : Channel) (i : Nat) :
    channel.number.testBit i = true ↔
      i = match channel with | .main => 0 | .comments => 1 := by
  cases channel with
  | main => exact Nat.testBit_one_eq_true_iff_self_eq_zero
  | comments =>
      change (2 ^ 1).testBit i = true ↔ i = 1
      rw [Nat.testBit_two_pow]
      simp [eq_comm]

theorem Channel.isIn_iff (channel : Channel) (mask : Int) :
    channel.isIn mask = true ↔ Int.land channel.number mask ≠ 0 := by
  rw [land_ne_zero_iff]
  simp only [testBit_number, exists_eq_left]
  unfold Channel.isIn
  cases channel with
  | main =>
      cases mask <;>
        simp [Int.testBit, Nat.testBit_eq_decide_div_mod_eq, Int.negSucc_eq] <;>
        omega
  | comments =>
      cases mask <;>
        simp [Int.testBit, Nat.testBit_eq_decide_div_mod_eq, Int.negSucc_eq] <;>
        omega

/-! ## A mask is a filter -/

namespace Token

theorem isLast_iff (t : Token) :
    t.isLast = true ↔ t.kind = .fault ∨ t.kind = .endOfInput :=
  ⟨kind_of_isLast, isLast_of_kind⟩

theorem passes_of_isLast {t : Token} (h : t.isLast = true) (mask : Int) :
    t.passes mask = true := by
  simp [passes, h]

end Token

namespace Scanner

theorem nextOn_of_passes {mask : Int} {s : Scanner}
    (h : s.next.1.passes mask = true) : s.nextOn mask = s.next := by
  rw [nextOn, dif_pos h]

theorem nextOn_of_not_passes {mask : Int} {s : Scanner}
    (h : s.next.1.passes mask = false) :
    s.nextOn mask = s.next.2.nextOn mask := by
  rw [nextOn, dif_neg (by simp [h])]

theorem tokensOn_of_not_passes {mask : Int} {s : Scanner}
    (h : s.next.1.passes mask = false) :
    s.tokensOn mask = s.next.2.tokensOn mask := by
  conv_lhs => rw [tokensOn, nextOn_of_not_passes h]
  conv_rhs => rw [tokensOn]

/-- From wherever a scanner stands, the tokens on some channels are those on all
channels that pass the mask. -/
theorem tokensOn_eq_filter (mask : Int) (s : Scanner) :
    (s.tokensOn mask).1 = (s.tokensOn allChannels).1.filter (·.passes mask) := by
  -- on the length of the text that is left, since every token but the last
  -- takes something away
  induction hlength : s.rest.length using Nat.strong_induction_on
    generalizing s with
  | _ length ih =>
    cases hlast : s.next.1.isLast with
    | true =>
        have hpasses := Token.passes_of_isLast hlast mask
        rw [tokensOn_of_isLast hlast, tokensOn, nextOn_of_passes hpasses,
          dif_pos hlast]
        simp [hpasses]
    | false =>
        have hprogress := next_progress s (Token.content_ne_endOfInput hlast)
        have hmore := ih _ (hlength ▸ hprogress) s.next.2 rfl
        rw [tokensOn_of_not_isLast hlast]
        cases hpasses : s.next.1.passes mask with
        | true =>
            rw [List.filter_cons, if_pos hpasses, ← hmore, tokensOn,
              nextOn_of_passes hpasses, dif_neg (by simp [hlast])]
        | false =>
            rw [List.filter_cons, if_neg (by simp [hpasses]), ← hmore,
              tokensOn_of_not_passes hpasses]

end Scanner

/-! ## Sessions -/

/-- What can be asked of a stream. -/
inductive StreamCall where
  | next
  | all
  | mask (mask : Int)
  | reset
  deriving DecidableEq, Repr

/-- The mask after some calls, where the given one was set before. -/
def StreamCall.lastMask (mask : Int) : List StreamCall → Int
  | [] => mask
  | .mask mask :: calls => lastMask mask calls
  | _ :: calls => lastMask mask calls

namespace Stream

def call (s : Stream) : StreamCall → Stream
  | .next => s.next.2
  | .all => s.all.2
  | .mask mask => s.withMask mask
  | .reset => s.reset

/-- The stream after some calls. -/
def calls (s : Stream) (calls : List StreamCall) : Stream := calls.foldl call s

/-- The next `k` tokens, and the stream after them. -/
def take : Nat → Stream → List Token × Stream
  | 0, s => ([], s)
  | k + 1, s => (s.next.1 :: (take k s.next.2).1, (take k s.next.2).2)

theorem source_call (s : Stream) (c : StreamCall) :
    (s.call c).source = s.source := by
  cases c <;> rfl

theorem source_calls (s : Stream) (cs : List StreamCall) :
    (s.calls cs).source = s.source := by
  induction cs generalizing s with
  | nil => rfl
  | cons c cs ih => exact (ih (s.call c)).trans (s.source_call c)

theorem mask_calls (s : Stream) (cs : List StreamCall) :
    (s.calls cs).mask = StreamCall.lastMask s.mask cs := by
  induction cs generalizing s with
  | nil => rfl
  | cons c cs ih =>
      have h := ih (s.call c)
      cases c <;> exact h

/-- Of what happened before, going back to the start leaves nothing but the
mask. -/
theorem reset_calls (source : Bytes) (cs : List StreamCall) :
    ((ofSource source).calls cs).reset =
      (ofSource source).withMask (StreamCall.lastMask allChannels cs) := by
  have hmask : ((ofSource source).calls cs).mask =
      StreamCall.lastMask allChannels cs := mask_calls _ cs
  have hsource : ((ofSource source).calls cs).source = source := source_calls _ cs
  unfold reset withMask
  rw [hmask, hsource]
  rfl

theorem take_append_all {k : Nat} {s : Stream}
    (h : ∀ t ∈ (s.take k).1, t.isLast = false) :
    (s.take k).1 ++ (s.take k).2.all.1 = s.all.1 := by
  induction k generalizing s with
  | zero => rfl
  | succ k ih =>
      obtain ⟨hfirst, hmore⟩ := List.forall_mem_cons.1 h
      have hrest := ih hmore
      have hall : s.all.1 = s.next.1 :: s.next.2.all.1 := by
        have hnot : ¬(s.scanner.nextOn s.mask).1.isLast = true := by
          change ¬s.next.1.isLast = true
          simp [hfirst]
        change (s.scanner.tokensOn s.mask).1 = _
        rw [Scanner.tokensOn, dif_neg hnot]
        rfl
      rw [hall, ← hrest]
      rfl

/-- The tokens under a mask are those on all channels without the ones that are
neither last nor share a bit with the mask.  After any calls a stream that goes
back to the start yields what a new one with the same mask yields.  And some
tokens, none of them last, together with all that follow them are what all
tokens would have been. -/
theorem masks_filter_and_resume (source : Bytes) (mask : Int)
    (cs : List StreamCall) (k : Nat) :
    let new := fun mask => (ofSource source).withMask mask
    let s := (ofSource source).calls cs
    (new mask).all.1 = (ofSource source).all.1.filter
        (fun t => t.kind = .fault ∨ t.kind = .endOfInput ∨
          Int.land t.channel.number mask ≠ 0) ∧
      s.reset.all.1 = (new (StreamCall.lastMask allChannels cs)).all.1 ∧
      ((∀ t ∈ (s.take k).1, t.kind ≠ .fault ∧ t.kind ≠ .endOfInput) →
        (s.take k).1 ++ (s.take k).2.all.1 = s.all.1) := by
  intro new s
  refine ⟨?_, ?_, ?_⟩
  · have hfilter := Scanner.tokensOn_eq_filter mask (.ofSource source)
    have hpasses (t : Token) : t.passes mask =
        decide (t.kind = .fault ∨ t.kind = .endOfInput ∨
          Int.land t.channel.number mask ≠ 0) := by
      rw [Bool.eq_iff_iff, decide_eq_true_iff, ← or_assoc, ← t.isLast_iff,
        ← t.channel.isIn_iff]
      exact Bool.or_eq_true_iff
    simp only [hpasses] at hfilter
    exact hfilter
  · rw [reset_calls]
  · intro h
    apply take_append_all
    intro t ht
    obtain ⟨hfault, hend⟩ := h t ht
    rw [Bool.eq_false_iff, ne_eq, t.isLast_iff]
    simp [hfault, hend]

/-- A comment, a name, a number and a fault, after calls that have read past the
fault. -/
theorem masks_filter_and_resume_sample :
    let source := utf8 "--! a\nx 1 $ y"
    let s := (ofSource source).calls [.mask 1, .all, .next, .reset, .mask 3, .next]
    ((ofSource source).withMask 2).all.1.map (·.value) =
      [utf8 " a", utf8 "invalid character"] ∧
      s.reset.all.1 = (ofSource source).all.1 ∧
      (s.take 2).1.map (·.value) = [utf8 "x", utf8 "1"] ∧
      (s.take 2).1 ++ (s.take 2).2.all.1 = s.all.1 := by
  intro source s
  obtain ⟨hfilter, hreset, hresume⟩ :=
    masks_filter_and_resume source 2 [.mask 1, .all, .next, .reset,
      .mask 3, .next] 2
  refine ⟨?_, ?_, by decide +kernel, hresume (by decide +kernel)⟩
  · rw [hfilter]
    decide +kernel
  · rw [hreset]
    decide +kernel

end Stream

end LuaGloss

import LuaGloss.Token.Scan

/-!
# Token streams

A stream yields the tokens of a source on the channels that its mask selects.
It can be stopped and resumed, its mask can change on the way, and it can go
back to the start.  The end of the input and faults pass every mask.
-/

namespace LuaGloss

def allChannels : Int := -1

def mainChannel : Int := 1

namespace Token

def passes (t : Token) (mask : Int) : Bool := t.isLast || t.channel.isIn mask

theorem content_ne_endOfInput {t : Token} (h : t.isLast = false) :
    t.content ≠ .endOfInput := by
  intro hc
  simp [isLast, hc] at h

theorem isLast_of_not_passes {t : Token} {mask : Int}
    (h : t.passes mask = false) : t.isLast = false := by
  simp [passes] at h
  exact h.1

end Token

namespace Scanner

def nextOn (mask : Int) (s : Scanner) : Token × Scanner :=
  if _h : s.next.1.passes mask then s.next else nextOn mask s.next.2
termination_by s.rest.length
decreasing_by
  exact next_progress s
    (Token.content_ne_endOfInput (Token.isLast_of_not_passes (by simpa using _h)))

theorem nextOn_progress (mask : Int) (s : Scanner) :
    (s.nextOn mask).1.isLast = false →
    (s.nextOn mask).2.rest.length < s.rest.length := by
  fun_induction nextOn mask s with
  | case1 s h => exact fun hl => next_progress s (Token.content_ne_endOfInput hl)
  | case2 s h ih =>
    intro hl
    have h₁ := next_progress s
      (Token.content_ne_endOfInput (Token.isLast_of_not_passes (by simpa using h)))
    have h₂ := ih hl
    omega

/-- All tokens that pass the mask, up to and including the end of the input or
the first fault. -/
def tokensOn (mask : Int) (s : Scanner) : List Token × Scanner :=
  if _h : (s.nextOn mask).1.isLast then ([(s.nextOn mask).1], (s.nextOn mask).2)
  else
    let more := tokensOn mask (s.nextOn mask).2
    ((s.nextOn mask).1 :: more.1, more.2)
termination_by s.rest.length
decreasing_by
  exact nextOn_progress mask s (by simpa using _h)

end Scanner

def tokenize (source : Bytes) : List Token :=
  ((Scanner.ofSource source).tokensOn allChannels).1

structure Stream where
  source : Bytes
  mask : Int
  scanner : Scanner

namespace Stream

def ofSource (source : Bytes) : Stream := ⟨source, allChannels, .ofSource source⟩

variable (s : Stream)

def withMask (mask : Int) : Stream := { s with mask }

def reset : Stream := { s with scanner := .ofSource s.source }

def next : Token × Stream :=
  let (t, scanner) := s.scanner.nextOn s.mask
  (t, { s with scanner })

def all : List Token × Stream :=
  let (ts, scanner) := s.scanner.tokensOn s.mask
  (ts, { s with scanner })

end Stream

end LuaGloss

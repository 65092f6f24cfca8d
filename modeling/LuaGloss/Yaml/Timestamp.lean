import LuaGloss.Text.Bytes

/-!
# Timestamps

A timestamp is a date, or a date and a time of day.  Between the two stands the
letter T, and then a time zone has to follow, or a space, and then none may
follow.  Month, day, hour, minute and second have one or two digits.
-/

namespace LuaGloss.Yaml.Timestamp

def number? : Bytes → Option (Nat × Bytes)
  | a :: b :: rest =>
    if Byte.isDigit a && Byte.isDigit b then some (Bytes.toNat 10 [a, b], rest)
    else if Byte.isDigit a then some (Byte.digitValue a, b :: rest)
    else none
  | [a] => if Byte.isDigit a then some (Byte.digitValue a, []) else none
  | [] => none

def after? (mark : UInt8) : Bytes → Option Bytes
  | b :: rest => if b = mark then some rest else none
  | [] => none

def isLeapYear (year : Nat) : Bool :=
  year % 4 == 0 && (year % 100 != 0 || year % 400 == 0)

def daysIn (year month : Nat) : Nat :=
  if month = 2 then if isLeapYear year then 29 else 28
  else if month = 4 ∨ month = 6 ∨ month = 9 ∨ month = 11 then 30
  else 31

variable (s : Bytes)

def afterDate? : Option Bytes := do
  let year := s.take 4
  let rest ← after? Byte.dash (s.drop 4)
  let (month, rest) ← number? rest
  let (day, rest) ← number? (← after? Byte.dash rest)
  let isDate :=
    year.all Byte.isDigit && 1 ≤ month && month ≤ 12 && 1 ≤ day && day ≤
      daysIn (Bytes.toNat 10 year) month
  if isDate then some rest else none

def afterFraction : Bytes :=
  match s with
  | mark :: digit :: rest =>
    if (mark == Byte.dot || mark == Byte.comma) && Byte.isDigit digit then
      rest.dropWhile Byte.isDigit
    else s
  | _ => s

def afterTime? : Option Bytes := do
  let (hour, rest) ← number? s
  let (minute, rest) ← number? (← after? Byte.colon rest)
  let (second, rest) ← number? (← after? Byte.colon rest)
  if hour < 24 && minute < 60 && second < 60 then
    some (afterFraction rest)
  else none

/-- Whether a text is a time zone: the letter Z, or a sign, hours and
minutes. -/
def isZone : Bytes → Bool
  | [90] => true
  | [sign, a, b, colon, c, d] =>
    (sign == Byte.plus || sign == Byte.dash) && colon == Byte.colon &&
      [a, b, c, d].all Byte.isDigit
      && Bytes.toNat 10 [a, b] ≤ 24 && Bytes.toNat 10 [c, d] ≤ 60
  | _ => false

def isValid : Bool :=
  match afterDate? s with
  | none => false
  | some [] => true
  | some (mark :: rest) =>
    if mark = 84 ∨ mark = 116 then (afterTime? rest).any isZone
    else if mark = Byte.space then
      (afterTime? (rest.dropWhile (· == Byte.space))).any List.isEmpty
    else false

end LuaGloss.Yaml.Timestamp

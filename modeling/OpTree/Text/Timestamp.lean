import OpTree.Text.Bytes

/-!
# Dates and times

A date is `YYYY-MM-DD` and names a day that exists; a time of day is `hh:mm:ss`, where one digit is
enough for the hour and a fraction of a second may follow; an offset is `Z` or `±hh:mm`. Each reader
answers with what follows.
-/

namespace OpTree

set_option autoImplicit false

namespace Timestamp

/-- The rest after the byte `b`. -/
def skip? (b : UInt8) : Bytes → Option Bytes
  | c :: r => if c == b then some r else none
  | [] => none

def digit? : Bytes → Option (Nat × Bytes)
  | b :: r => if Bytes.isDigit b then some (b.toNat - 48, r) else none
  | [] => none

def twoDigits? (s : Bytes) : Option (Nat × Bytes) := do
  let (a, s) ← digit? s
  let (b, s) ← digit? s
  return (10 * a + b, s)

def isLeap (year : Nat) : Bool := year % 4 == 0 && (year % 100 != 0 || year % 400 == 0)

def daysIn (year month : Nat) : Nat :=
  if month = 2 then if isLeap year then 29 else 28
  else if [4, 6, 9, 11].contains month then 30
  else 31

def date? (s : Bytes) : Option Bytes := do
  let (century, s) ← twoDigits? s
  let (year, s) ← twoDigits? s
  let (month, s) ← (skip? 45 s).bind twoDigits?
  let (day, s) ← (skip? 45 s).bind twoDigits?
  if 1 ≤ month && month ≤ 12 && 1 ≤ day && day ≤ daysIn (100 * century + year) month then some s
  else none

/-- What follows a fraction, if there is one. -/
def skipFraction : Bytes → Bytes
  | p :: b :: r =>
    if (p == 46 || p == 44) && Bytes.isDigit b then r.dropWhile Bytes.isDigit else p :: b :: r
  | s => s

def timeOfDay? (s : Bytes) : Option Bytes := do
  let (hour, s) ← (twoDigits? s).or (digit? s)
  let (minute, s) ← (skip? 58 s).bind twoDigits?
  let (second, s) ← (skip? 58 s).bind twoDigits?
  if hour < 24 && minute < 60 && second < 60 then some (skipFraction s) else none

def offset? : Bytes → Option Bytes
  | 90 :: r => some r
  | b :: r => do
    if b != 43 && b != 45 then none
    else
      let (_, s) ← twoDigits? r
      let (_, s) ← (skip? 58 s).bind twoDigits?
      return s
  | [] => none

/-- A date and a time of day with `T` between them. -/
def dateTime? (s : Bytes) : Option Bytes := ((date? s).bind (skip? 84)).bind timeOfDay?

/-- A date and a time with an offset, which together name one moment. -/
def isMoment (s : Bytes) : Bool := (dateTime? s).bind offset? == some []

/-- A moment, or a date, a time of day or both without an offset. -/
def isTime (s : Bytes) : Bool :=
  isMoment s || dateTime? s == some [] || date? s == some [] || timeOfDay? s == some []

end Timestamp

end OpTree

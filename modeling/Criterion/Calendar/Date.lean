import Criterion.Calendar.Duration

/-!
# Dates

Dates of the Gregorian calendar from year 1 to year 9999, and their day numbers: day 1 is the
first of January of year 1.
-/

namespace Criterion

def isLeapYear (y : Nat) : Bool := y % 4 == 0 && (y % 100 != 0 || y % 400 == 0)

def daysInMonth (y m : Nat) : Nat :=
  if m = 2 then (if isLeapYear y then 29 else 28)
  else if m = 4 ∨ m = 6 ∨ m = 9 ∨ m = 11 then 30 else 31

/-- Whether the calendar has the date. -/
def Date.isValid (y m d : Nat) : Bool :=
  1 ≤ y && y ≤ 9999 && 1 ≤ m && m ≤ 12 && 1 ≤ d && d ≤ daysInMonth y m

structure Date where
  year : Nat
  month : Nat
  day : Nat
  valid : Date.isValid year month day = true
deriving DecidableEq

namespace Date

def of? (y m d : Nat) : Option Date :=
  if h : isValid y m d = true then some ⟨y, m, d, h⟩ else none

/-- The first and the last date of the calendar. -/
def first : Date := ⟨1, 1, 1, by decide⟩

def last : Date := ⟨9999, 12, 31, by decide⟩

/-- The days of all years before `y`. -/
def daysBeforeYear (y : Nat) : Nat :=
  (y - 1) * 365 + (y - 1) / 4 - (y - 1) / 100 + (y - 1) / 400

/-- The days of the months of year `y` before month `m`. -/
def daysBeforeMonth (y m : Nat) : Nat :=
  ((List.range (m - 1)).map fun k => daysInMonth y (k + 1)).foldl (· + ·) 0

/-- The day number. -/
def ordinal (d : Date) : Nat :=
  daysBeforeYear d.year + daysBeforeMonth d.year d.month + d.day

/-- The month and day that follow `n` days of the months from month `m` on, `left` months
being left in the year. -/
def monthAndDay (y m n : Nat) : Nat → Nat × Nat
  | 0 => (m, n + 1)
  | left + 1 =>
    if n < daysInMonth y m then (m, n + 1)
    else monthAndDay y (m + 1) (n - daysInMonth y m) left

/-- The year that contains the day with `n` days before it. Of four centuries only the last
is full, and of four years only the last has a leap day. -/
def yearOfDay (n : Nat) : Nat :=
  let centuries := min (n % 146097 / 36524) 3
  let inCentury := n % 146097 - centuries * 36524
  let inFour := inCentury % 1461
  n / 146097 * 400 + centuries * 100 + inCentury / 1461 * 4 + min (inFour / 365) 3 + 1

/-- The date with a day number. -/
def ofOrdinal? (n : Int) : Option Date :=
  if n < 1 then none
  else
    let before := n.toNat - 1
    let y := yearOfDay before
    let (m, d) := monthAndDay y 1 (before - daysBeforeYear y) 11
    of? y m d

/-- The day of the week, from Monday, which is 0. -/
def weekday (d : Date) : Nat := (d.ordinal + 6) % 7

/-- The date moved by whole days. -/
def addDays? (d : Date) (days : Int) : Option Date := ofOrdinal? (d.ordinal + days)

/-- The duration between two dates. -/
def sub? (a b : Date) : Option Duration :=
  Duration.ofParts? ((a.ordinal : Int) - b.ordinal) 0 0

/-- Year, month and day, in four, two and two digits. -/
def text (d : Date) : String :=
  padded 4 d.year ++ "-" ++ padded 2 d.month ++ "-" ++ padded 2 d.day

end Date

end Criterion

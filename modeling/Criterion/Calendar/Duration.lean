import Criterion.Number

/-!
# Durations

A duration is a whole number of microseconds, of at most `999999999` days. Its parts are the
days, which carry the sign, and the seconds and microseconds within a day.
-/

namespace Criterion

def microsPerSecond : Nat := 1000000

def microsPerDay : Nat := 86400 * microsPerSecond

/-- The largest number of days in a duration. -/
def durationDayLimit : Nat := 999999999

/-- Whether a number of microseconds is within the range of durations. -/
def Duration.inRange (micros : Int) : Bool :=
  -(durationDayLimit * microsPerDay : Nat) ≤ micros
    && micros < ((durationDayLimit + 1) * microsPerDay : Nat)

structure Duration where
  micros : Int
  valid : Duration.inRange micros = true
deriving DecidableEq

namespace Duration

def ofMicros? (micros : Int) : Option Duration :=
  if h : inRange micros = true then some ⟨micros, h⟩ else none

def zero : Duration := ⟨0, by decide⟩

def microsecond : Duration := ⟨1, by decide⟩

def day : Duration := ⟨microsPerDay, by decide⟩

/-- The shortest and the longest duration. -/
def first : Duration := ⟨-(durationDayLimit * microsPerDay : Nat), by decide⟩

def last : Duration := ⟨((durationDayLimit + 1) * microsPerDay : Nat) - 1, by decide⟩

/-- Whole days, towards the past. -/
def days (d : Duration) : Int := d.micros.fdiv microsPerDay

/-- Seconds within the day. -/
def seconds (d : Duration) : Int := d.micros.fmod microsPerDay / microsPerSecond

/-- Microseconds within the second. -/
def microseconds (d : Duration) : Int := d.micros.fmod microsPerSecond

/-- The duration with the given parts, which need not be normalised. -/
def ofParts? (days seconds microseconds : Int) : Option Duration :=
  ofMicros? ((days * 86400 + seconds) * microsPerSecond + microseconds)

def add? (a b : Duration) : Option Duration := ofMicros? (a.micros + b.micros)

def sub? (a b : Duration) : Option Duration := ofMicros? (a.micros - b.micros)

/-- `n / d` rounded to the nearest integer, a half to the even one, for `d` other than zero. -/
def nearest (n d : Int) : Int :=
  signed (decide (n < 0) != decide (d < 0)) (nearestDiv n.natAbs d.natAbs)

/-- The duration times a number: exact for an integer, and rounded to microseconds for a
fraction taken at its exact value. -/
def mul? (d : Duration) : Number → Option Duration
  | .whole i => ofMicros? (d.micros * i)
  | .real x => x.units?.bind fun u => ofMicros? (nearest (d.micros * u) unitsPerOne)

/-- The duration divided by a number other than zero, rounded to microseconds. -/
def div? (d : Duration) : Number → Option Duration
  | .whole i => ofMicros? (nearest d.micros i)
  | .real x => x.units?.bind fun u => ofMicros? (nearest (d.micros * unitsPerOne) u)

/-- How many times a duration, which is not zero, fits into another. -/
def ratio? (a b : Duration) : Option Binary64 :=
  ((Number.whole a.micros).div (.whole b.micros)).toOption.bind Number.fraction?

/-- The length in seconds. -/
def totalSeconds (d : Duration) : Binary64 :=
  Binary64.ofRatio (d.micros < 0) d.micros.natAbs microsPerSecond

/-- Days, if there are any, then hours, minutes and seconds, and microseconds if there are any. -/
def text (d : Duration) : String :=
  let seconds := d.seconds.toNat
  let days := d.days
  let dayText :=
    if days = 0 then ""
    else integerText days ++ (if days.natAbs = 1 then " day, " else " days, ")
  let microseconds := d.microseconds.toNat
  dayText ++ naturalText (seconds / 3600) ++ ":" ++ padded 2 (seconds / 60 % 60) ++ ":"
    ++ padded 2 (seconds % 60)
    ++ if microseconds = 0 then "" else "." ++ padded 6 microseconds

end Duration

end Criterion

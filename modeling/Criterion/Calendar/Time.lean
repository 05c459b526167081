import Criterion.Calendar.Date

/-!
# Times of day, and dates with times

A time may carry a fixed offset from universal time, of less than a day. Times with an offset
and times without one are never equal and have no order.
-/

namespace Criterion

/-- Whether an offset is less than a day. -/
def Offset.isValid (micros : Int) : Bool := micros.natAbs < microsPerDay

/-- A fixed offset from universal time. -/
structure Offset where
  micros : Int
  valid : Offset.isValid micros = true
deriving DecidableEq

namespace Offset

def ofMicros? (micros : Int) : Option Offset :=
  if h : isValid micros = true then some ⟨micros, h⟩ else none

def utc : Offset := ⟨0, by decide⟩

/-- The offsets of whole minutes that are farthest from universal time. -/
def first : Offset := ⟨-86340000000, by decide⟩

def last : Offset := ⟨86340000000, by decide⟩

/-- The offset as a duration. -/
def duration (o : Offset) : Duration :=
  ⟨o.micros, by
    have hvalid := o.valid
    unfold isValid microsPerDay microsPerSecond at hvalid
    rw [decide_eq_true_iff] at hvalid
    unfold Duration.inRange durationDayLimit microsPerDay microsPerSecond
    rw [Bool.and_eq_true, decide_eq_true_iff, decide_eq_true_iff]
    omega⟩

/-- Sign, hours and minutes, then seconds and microseconds as far as there are any. -/
def text (o : Offset) : String :=
  let micros := o.micros.natAbs
  let seconds := micros / microsPerSecond
  (if o.micros < 0 then "-" else "+") ++ padded 2 (seconds / 3600) ++ ":"
    ++ padded 2 (seconds / 60 % 60)
    ++ (if seconds % 60 = 0 ∧ micros % microsPerSecond = 0 then "" else ":" ++ padded 2 (seconds % 60))
    ++ if micros % microsPerSecond = 0 then "" else "." ++ padded 6 (micros % microsPerSecond)

/-- The name of the zone with the offset. -/
def zoneName (o : Offset) : String := if o.micros = 0 then "UTC" else "UTC" ++ o.text

end Offset

/-- Whether the parts make a time of day. -/
def Time.isValid (h m s us : Nat) : Bool := h < 24 && m < 60 && s < 60 && us < microsPerSecond

structure Time where
  hour : Nat
  minute : Nat
  second : Nat
  microsecond : Nat
  offset : Option Offset
  valid : Time.isValid hour minute second microsecond = true
deriving DecidableEq

namespace Time

def of? (h m s us : Nat) (offset : Option Offset) : Option Time :=
  if v : isValid h m s us = true then some ⟨h, m, s, us, offset, v⟩ else none

def midnight : Time := ⟨0, 0, 0, 0, none, by decide⟩

/-- The last microsecond of a day. -/
def last : Time := ⟨23, 59, 59, 999999, none, by decide⟩

/-- Whole seconds since midnight. -/
def secondOfDay (t : Time) : Nat := t.hour * 3600 + t.minute * 60 + t.second

/-- Microseconds since midnight. -/
def micros (t : Time) : Nat := t.secondOfDay * microsPerSecond + t.microsecond

/-- The time of day without its offset. -/
def withoutOffset (t : Time) : Time := { t with offset := none }

/-- How two times compare in universal time, down to whole seconds of their offsets. -/
def compare? (a b : Time) : Option Ordering :=
  match a.offset, b.offset with
  | none, none => some (compare a.micros b.micros)
  | some o, some p =>
    let x : Int := a.secondOfDay - o.micros.fdiv microsPerSecond
    let y : Int := b.secondOfDay - p.micros.fdiv microsPerSecond
    some ((compare x y).then (compare a.microsecond b.microsecond))
  | _, _ => none

/-- Hours, minutes and seconds, microseconds if there are any, and the offset. -/
def text (t : Time) : String :=
  padded 2 t.hour ++ ":" ++ padded 2 t.minute ++ ":" ++ padded 2 t.second
    ++ (if t.microsecond = 0 then "" else "." ++ padded 6 t.microsecond)
    ++ match t.offset with
      | some o => o.text
      | none => ""

end Time

/-- A date and a time of that day. -/
structure Moment where
  date : Date
  time : Time
deriving DecidableEq

namespace Moment

/-- Microseconds since the start of the calendar, by the clock that the moment is written in. -/
def localMicros (m : Moment) : Int := (m.date.ordinal * microsPerDay : Nat) + (m.time.micros : Nat)

/-- The microseconds of two moments, comparable if both or neither have an offset. -/
def commonMicros? (a b : Moment) : Option (Int × Int) :=
  match a.time.offset, b.time.offset with
  | none, none => some (a.localMicros, b.localMicros)
  | some o, some p => some (a.localMicros - o.micros, b.localMicros - p.micros)
  | _, _ => none

/-- How two moments compare in universal time. -/
def compare? (a b : Moment) : Option Ordering :=
  (a.commonMicros? b).map fun (x, y) => compare x y

/-- The duration between two moments. -/
def sub? (a b : Moment) : Option Duration :=
  (a.commonMicros? b).bind fun (x, y) => Duration.ofMicros? (x - y)

/-- The moment moved by microseconds on its own clock. -/
def addMicros? (m : Moment) (micros : Int) : Option Moment := do
  let moved := m.localMicros + micros
  let inDay := (moved.fmod microsPerDay).toNat
  let date ← Date.ofOrdinal? (moved.fdiv microsPerDay)
  let seconds := inDay / microsPerSecond
  let time ← Time.of? (seconds / 3600) (seconds / 60 % 60) (seconds % 60) (inDay % microsPerSecond)
    m.time.offset
  return ⟨date, time⟩

/-- The date, a `T` and the time. -/
def text (m : Moment) : String := m.date.text ++ "T" ++ m.time.text

end Moment

end Criterion

import Criterion.Calendar.Time

/-!
# Dates and times from text

The texts of ISO 8601 that stand for a date, a time or a date with a time: with or without
separators, by month or by week, with a fraction of a second and an offset.

A character that takes several bytes counts as that many positions, so the positions of the
format are byte positions.

* `Date.ofText?`, `Time.ofText?`, `Moment.ofText?`.
-/

namespace Criterion

namespace Iso

/-- A text by bytes: each character stands in all of its bytes' places. -/
def bytes (s : String) : List Char :=
  s.toList.flatMap fun c => List.replicate c.utf8Size c

/-- A number of exactly `n` digits, and the rest. -/
def digits? (n : Nat) (cs : List Char) : Option (Nat × List Char) :=
  let head := cs.take n
  if head.length = n ∧ head.all Char.isDigit then some (digitsValue head, cs.drop n) else none

/-- The character if it is the next one. -/
def expect? (c : Char) : List Char → Option (List Char)
  | d :: rest => if d = c then some rest else none
  | [] => none

/-! ## Dates -/

/-- Whether a year has a week of the number: 53 weeks belong to a year that starts on a
Thursday, and to a leap year that starts on a Wednesday. -/
def hasWeek (y w : Nat) : Bool :=
  let first := (Date.daysBeforeYear y + 1 + 6) % 7
  1 ≤ w && (w ≤ 52 || (w == 53 && (first == 3 || (first == 2 && isLeapYear y))))

/-- The day number of the Monday of the first week of a year: the week that has its first
Thursday. -/
def firstMonday (y : Nat) : Int :=
  let first : Int := Date.daysBeforeYear y + 1
  let weekday := (first + 6) % 7
  if 3 < weekday then first - weekday + 7 else first - weekday

/-- The date of a day, from 1, of a week of a year. -/
def weekDate? (y w d : Nat) : Option Date :=
  if 1 ≤ y ∧ hasWeek y w ∧ 1 ≤ d ∧ d ≤ 7 then
    Date.ofOrdinal? (firstMonday y + ((w - 1) * 7 + (d - 1) : Nat))
  else none

/-- The week and day after the `W` of a date. The day may be left out if the date ends there. -/
def week? (y : Nat) (separated : Bool) (cs : List Char) : Option Date := do
  let (w, rest) ← digits? 2 cs
  if rest.isEmpty then weekDate? y w 1
  else
    let rest ← if separated then expect? '-' rest else some rest
    let (d, _) ← digits? 1 rest
    weekDate? y w d

/-- A date: a year and either a month and a day or a week. What follows the day is not read. -/
def date? (cs : List Char) : Option Date := do
  let (y, rest) ← digits? 4 cs
  let separated := rest.head? == some '-'
  let rest := if separated then rest.drop 1 else rest
  if rest.head? == some 'W' then week? y separated (rest.drop 1)
  else
    let (m, rest) ← digits? 2 rest
    let rest ← if separated then expect? '-' rest else some rest
    let (d, _) ← digits? 2 rest
    Date.of? y m d

/-! ## Times -/

/-- The parts of a time or of an offset. `ended` tells whether they take up the whole text. -/
structure Clock where
  hour : Nat
  minute : Nat
  second : Nat
  microsecond : Nat
  ended : Bool

/-- The fraction of a second: its first six digits count, further digits are skipped. -/
def fraction? (h m s : Nat) (cs : List Char) : Option Clock := do
  let count := min 6 cs.length
  let (value, rest) ← digits? count cs
  return ⟨h, m, s, value * Nat.pow 10 (6 - count), (rest.dropWhile Char.isDigit).isEmpty⟩

/-- What stands after a part of a time: the end, the next part, the fraction, or one more
character that ends the text without being read. -/
inductive After where
  | stop (ended : Bool)
  | part (rest : List Char)
  | fraction (rest : List Char)

/-- What stands after a part of a time that is, or is not, written with colons. -/
def after? (separated : Bool) : List Char → Option After
  | [] => some (.stop true)
  | [_] => some (.stop false)
  | c :: rest =>
    if separated && c == ':' then some (.part rest)
    else if c = '.' ∨ c = ',' then some (.fraction rest)
    else if separated then none
    else some (.part (c :: rest))

/-- Hours, minutes and seconds, of which the last may be left out, and a fraction. -/
def clock? (cs : List Char) : Option Clock := do
  let (h, rest) ← digits? 2 cs
  let separated := rest.head? == some ':'
  match ← after? separated rest with
  | .stop ended => return ⟨h, 0, 0, 0, ended⟩
  | .fraction rest => fraction? h 0 0 rest
  | .part rest =>
    let (m, rest) ← digits? 2 rest
    match ← after? separated rest with
    | .stop ended => return ⟨h, m, 0, 0, ended⟩
    | .fraction rest => fraction? h m 0 rest
    | .part rest =>
      let (s, rest) ← digits? 2 rest
      match ← after? separated rest with
      | .stop ended => return ⟨h, m, s, 0, ended⟩
      | .fraction rest | .part rest => fraction? h m s rest

/-- An offset: the parts after a sign, or universal time if they come to no whole second. -/
def offset? (negative : Bool) (cs : List Char) : Option Offset := do
  let c ← clock? cs
  let seconds := c.hour * 3600 + c.minute * 60 + c.second
  if !c.ended then none
  else if seconds = 0 then some Offset.utc
  else Offset.ofMicros? (signed negative (seconds * microsPerSecond + c.microsecond))

/-- A time of day with an offset, if one is written: `Z`, or a sign and its parts. -/
def time? (cs : List Char) : Option Time := do
  let isMark := fun c => c == '+' || c == '-' || c == 'Z'
  let c ← clock? (cs.takeWhile (!isMark ·))
  match cs.dropWhile (!isMark ·) with
  | [] => if c.ended then Time.of? c.hour c.minute c.second c.microsecond none else none
  | mark :: rest =>
    let offset ←
      if mark = 'Z' then (if rest.isEmpty then some Offset.utc else none)
      else offset? (mark == '-') rest
    Time.of? c.hour c.minute c.second c.microsecond (some offset)

/-! ## Dates with times -/

/-- The length of the date before the separator. A digit after the week and a hyphen is taken
for an hour, and an odd number of digits after the week for its day. -/
def dateLength (cs : List Char) : Nat :=
  let isAt (i : Nat) (p : Char → Bool) : Bool := match cs[i]? with
    | some c => p c
    | none => false
  if cs.length = 7 then 7
  else if isAt 4 (· == '-') then
    if isAt 5 (· == 'W') then
      if isAt 8 (· == '-') then (if isAt 10 Char.isDigit then 8 else 10) else 8
    else 10
  else if isAt 4 (· == 'W') then
    let digits := 7 + ((cs.drop 7).takeWhile Char.isDigit).length
    if digits < 9 then digits else if digits % 2 = 0 then 7 else 8
  else 8

/-- A date, any one character, and a time; without a time it is midnight. -/
def moment? (s : String) : Option Moment := do
  let cs := bytes s
  let length := dateLength cs
  let date ← date? (cs.take length)
  match cs.drop length with
  | [] => return ⟨date, Time.midnight⟩
  | separator :: rest => return ⟨date, ← time? ((separator :: rest).drop separator.utf8Size)⟩

end Iso

/-- The date that a text of seven, eight or ten bytes stands for. -/
def Date.ofText? (s : String) : Option Date :=
  let cs := Iso.bytes s
  if cs.length = 7 ∨ cs.length = 8 ∨ cs.length = 10 then Iso.date? cs else none

/-- The time that a text stands for; it may begin with a `T`. -/
def Time.ofText? (s : String) : Option Time :=
  match Iso.bytes s with
  | 'T' :: rest => Iso.time? rest
  | cs => Iso.time? cs

def Moment.ofText? (s : String) : Option Moment := Iso.moment? s

end Criterion

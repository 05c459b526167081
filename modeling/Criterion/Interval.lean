import Criterion.Value.Shown

/-!
# Ranges and intervals

`a..b` is the list of the integers from `a` to `b`, up or down. An interval such as `(1..5]` is a
test: its two bounds may come in either order, and each belongs to it or not. Between numbers a
bound that does not belong is moved inwards by a small step, and the test then includes it, so
values closer to it than the step are answered approximately.

* `Value.range`: the integers between two numbers.
* `Interval.includes`: whether a value lies in an interval; null if it cannot be compared.
-/

namespace Criterion

/-- `count` integers from `start` on, each moved from the one before by `step`. -/
def progression (count start step : Int) : List Int :=
  (List.range count.toNat).map fun i : Nat => start + (i : Int) * step

/-- The integers between two integers, both included, from the first to the second. -/
def integersBetween (low high : Int) : List Int :=
  progression ((high - low).natAbs + 1) low (if high < low then -1 else 1)

namespace Value

/-- The integer that a value is, if it is a number without a fraction. -/
def whole? : Value → Option Int
  | .number n => n.whole?
  | _ => none

/-- The integers between two values. -/
def range (a b : Value) : Except Failure (List Int) :=
  match a.whole?, b.whole? with
  | some low, some high => .ok (integersBetween low high)
  | _, _ => do
    let low ← a.shown
    let high ← b.shown
    throw (.unsupportedRange low high)

/-- The smaller of two values; the first if they are equal. -/
def least? (a b : Value) : Option Value := do
  let swap ← b.lt? a
  return if swap then b else a

/-- The larger of two values; the first if they are equal. -/
def greatest? (a b : Value) : Option Value := do
  let swap ← b.gt? a
  return if swap then b else a

end Value

/-- How far a bound that does not belong to an interval of numbers is moved inwards. -/
def boundStep : Number := .real (.ofDecimal false 1 (-6))

/-- The direction from one number to another: `1`, `0` or `-1`. -/
def Number.direction (a b : Number) : Except Failure Int := do
  let difference ← b.sub a
  return if Number.lt (.whole 0) difference then 1
    else if difference.lt (.whole 0) then -1 else 0

/-- A bound as an interval of numbers tests it: itself if it belongs, else moved in the
direction of the interior. -/
def Number.movedBound (bound : Number) (includes : Bool) (inwards : Int) :
    Except Failure Number := do
  if includes then bound.add (.whole 0)
  else bound.add (← (Number.whole inwards).mul boundStep)

/-- Whether a number lies between two numbers in either order, both included. -/
def Number.isBetween (v a b : Number) : Bool :=
  (if b.lt a then b else a).le v && v.le (if a.lt b then b else a)

namespace Interval

/-- An interval from its brackets: only `[` opens and only `]` closes with the bound. -/
def ofBrackets (opening : String) (start stop : Value) (closing : String) : Interval Value :=
  ⟨start, stop, opening == "[", closing == "]"⟩

/-- Membership in an interval of numbers. -/
def includesNumber (start stop : Number) (includesStart includesStop : Bool) (v : Number) :
    Except Failure Bool := do
  let direction ← start.direction stop
  let first ← start.movedBound includesStart direction
  let last ← stop.movedBound includesStop (-direction)
  return v.isBetween first last

/-- Membership by the order of the values themselves. -/
def includesOrdered (i : Interval Value) (v : Value) : Option Bool := do
  let descending ← i.stop.lt? i.start
  let (low, high, includesLow, includesHigh) :=
    if descending then (i.stop, i.start, i.includesStop, i.includesStart)
    else (i.start, i.stop, i.includesStart, i.includesStop)
  let above ← if includesLow then low.le? v else low.lt? v
  let below ← if includesHigh then v.le? high else v.lt? high
  return above && below

/-- Whether a value lies in an interval; none if it cannot be compared with the bounds. -/
def includes (i : Interval Value) (v : Value) : Except Failure (Option Bool) :=
  match i.start, i.stop, v with
  | .null, _, _ => .ok none
  | _, .null, _ => .ok none
  | _, _, .null => .ok none
  | .number a, .number b, .number n =>
    (includesNumber a b i.includesStart i.includesStop n).map some
  | a, b, v => .ok (if a.sameKind b && a.sameKind v then i.includesOrdered v else none)

/-- The interval with its brackets, as messages show it. -/
def shown (i : Interval Value) : Except Failure String := do
  let start ← i.start.shown
  let stop ← i.stop.shown
  return "Interval" ++ (if i.includesStart then "[" else "(") ++ start ++ ".." ++ stop
    ++ if i.includesStop then "]" else ")"

end Interval

end Criterion

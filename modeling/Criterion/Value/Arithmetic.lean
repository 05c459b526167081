import Criterion.Value.Basic

/-!
# Arithmetic on values

Arithmetic never fails: operands that do not fit together give null, as do a divisor of zero
and a result that is not finite. Text can only be joined, and dates and durations combine as
far as the calendar goes.

* `Value.arithmetic`: the result of an operator on two values.
-/

namespace Criterion

/-- The result of an operator on two numbers, null if there is none or it is not finite. -/
def Number.arithmetic (op : Arithmetic) (a b : Number) : Option Number :=
  let result :=
    match op with
    | .plus => (a.add b).toOption
    | .minus => (a.sub b).toOption
    | .times => (a.mul b).toOption
    | .over => (a.div b).toOption
    | .power => a.pow? b
  result.filter Number.isFinite

namespace Value

/-- Sums of dates and durations. -/
def temporalSum? : Value → Value → Option Value
  | .date d, .duration p => (d.addDays? p.days).map .date
  | .duration p, .date d => (d.addDays? p.days).map .date
  | .moment m, .duration p => (m.addMicros? p.micros).map .moment
  | .duration p, .moment m => (m.addMicros? p.micros).map .moment
  | .duration p, .duration q => (p.add? q).map .duration
  | _, _ => none

/-- Differences of dates and durations. -/
def temporalDifference? : Value → Value → Option Value
  | .date d, .date e => (d.sub? e).map .duration
  | .date d, .duration p => (d.addDays? (-p.days)).map .date
  | .moment m, .moment n => (m.sub? n).map .duration
  | .moment m, .duration p => (m.addMicros? (-p.micros)).map .moment
  | .duration p, .duration q => (p.sub? q).map .duration
  | _, _ => none

/-- Multiples of durations. -/
def temporalProduct? : Value → Value → Option Value
  | .duration p, .number n => (p.mul? n).map .duration
  | .number n, .duration p => (p.mul? n).map .duration
  | _, _ => none

/-- Parts of durations, and ratios of two of them. -/
def temporalQuotient? : Value → Value → Option Value
  | .duration p, .duration q => (p.ratio? q).map fun x => .number (.real x)
  | .duration p, .number n => (p.div? n).map .duration
  | _, _ => none

/-- The result of an operator on dates and durations. -/
def temporal? : Arithmetic → Value → Value → Option Value
  | .plus => temporalSum?
  | .minus => temporalDifference?
  | .times => temporalProduct?
  | .over => temporalQuotient?
  | .power => fun _ _ => none

/-- The result of an operator on two values, null if there is none. -/
def arithmetic (op : Arithmetic) (a b : Value) : Value :=
  if op = .over ∧ !b.isNonzero then .null
  else match a, b with
    | .text s, .text t => if op = .plus then .text (s ++ t) else .null
    | .number m, .number n => .ofOption ((Number.arithmetic op m n).map .number)
    | a, b => .ofOption (temporal? op a b)

end Value

end Criterion

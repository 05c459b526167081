import Criterion.Decimal
import Criterion.Failure

/-!
# Numbers

A number is an integer of any size or a binary64 fraction. Two integers combine exactly; an
integer meets a fraction as its nearest binary64 number, and fails when that would be infinite.
Comparison never rounds.
-/

namespace Criterion

inductive Number where
  | whole (i : Int)
  | real (x : Binary64)
deriving DecidableEq

namespace Number

/-- The binary64 number nearest to a number. -/
def toReal : Number → Except Failure Binary64
  | .whole i =>
    let x := Binary64.ofInt i
    if x.isFinite then .ok x else .error .overflow
  | .real x => .ok x

/-- An operation that is exact on two integers and otherwise binary64. -/
def combine (onWhole : Int → Int → Int) (onReal : Binary64 → Binary64 → Binary64) :
    Number → Number → Except Failure Number
  | .whole a, .whole b => .ok (.whole (onWhole a b))
  | a, b => do
    let x ← a.toReal
    let y ← b.toReal
    return .real (onReal x y)

def add : Number → Number → Except Failure Number := combine (· + ·) Binary64.add

def sub : Number → Number → Except Failure Number := combine (· - ·) Binary64.sub

def mul : Number → Number → Except Failure Number := combine (· * ·) Binary64.mul

/-- The quotient, always a fraction. Of two integers it is rounded once, and fails when it is
too large. -/
def div : Number → Number → Except Failure Number
  | .whole a, .whole b =>
    let x := Binary64.ofRatio (decide (a < 0) != decide (b < 0)) a.natAbs b.natAbs
    if x.isFinite then .ok (.real x) else .error .overflow
  | a, b => do
    let x ← a.toReal
    let y ← b.toReal
    return .real (x.div y)

/-- The largest exponent of an exact power of an integer beyond one. -/
def powerLimit : Int := 1024

/-- `a` to the power `b`, for `a` in `-1`, `0`, `1` without multiplying. -/
def wholePower (a : Int) (b : Nat) : Int :=
  if a.natAbs ≤ 1 then
    if b = 0 then 1 else if a = -1 ∧ b % 2 = 0 then 1 else a
  else a.pow b

/-- The power, if it is finite: exact for integers with an exponent up to the limit, and
binary64 otherwise. -/
def pow? : Number → Number → Option Number
  | .whole a, .whole b =>
    if 0 ≤ b ∧ (a.natAbs ≤ 1 ∨ b ≤ powerLimit) then some (.whole (wholePower a b.toNat))
    else realPower (.whole a) (.whole b)
  | a, b => realPower a b
where
  realPower (a b : Number) : Option Number :=
    match a.toReal, b.toReal with
    | .ok x, .ok y => (x.pow? y).map .real
    | _, _ => none

def neg : Number → Number
  | .whole i => .whole (-i)
  | .real x => .real x.neg

def abs : Number → Number
  | .whole i => .whole i.natAbs
  | .real x => .real x.abs

/-- How two numbers compare, exactly; not a number compares with nothing. -/
def compare? : Number → Number → Option Ordering
  | .whole a, .whole b => some (compare a b)
  | .whole a, .real y => (y.compareInt? a).map Ordering.swap
  | .real x, .whole b => x.compareInt? b
  | .real x, .real y => x.compare? y

def eqv (a b : Number) : Bool := a.compare? b == some .eq

def lt (a b : Number) : Bool := a.compare? b == some .lt

def le (a b : Number) : Bool := a.compare? b == some .lt || a.compare? b == some .eq

def isZero : Number → Bool
  | .whole i => i == 0
  | .real x => x.isZero

/-- Whether the number is finite. -/
def isFinite : Number → Bool
  | .whole _ => true
  | .real x => x.isFinite

/-- Whether the number is a fraction that is not a number. -/
def isNaN : Number → Bool
  | .whole _ => false
  | .real x => x.isNaN

/-- The integer that a number is, if it is one. -/
def whole? : Number → Option Int
  | .whole i => some i
  | .real x => if x.isWhole then x.units?.map (· / unitsPerOne) else none

/-- The fraction that a number is, if it is none of the integers. -/
def fraction? : Number → Option Binary64
  | .whole _ => none
  | .real x => some x

/-- An integer taken from the units of a number; an infinity is too large, and not a number
has none. -/
def toWhole (ofUnits : Int → Int) : Number → Except Failure Int
  | .whole i => .ok i
  | .real .nan => .error .notANumber
  | .real (.infinite _) => .error .overflow
  | .real (.finite s u) => .ok (ofUnits (signed s u.units))

/-- The integer part, towards zero. -/
def truncate : Number → Except Failure Int := toWhole fun u => u.tdiv unitsPerOne

/-- The largest integer that is not larger. -/
def floor : Number → Except Failure Int := toWhole fun u => u.fdiv unitsPerOne

/-- The smallest integer that is not smaller. -/
def ceiling : Number → Except Failure Int := toWhole fun u => -((-u).fdiv unitsPerOne)

/-- A signed magnitude rounded to a multiple of `10^places`, a half to the even multiple. -/
def roundWhole (i : Int) (places : Nat) : Int :=
  if (Nat.toDigits 10 i.natAbs).length < places then 0
  else signed (i < 0) (nearestDiv i.natAbs (Nat.pow 10 places) * Nat.pow 10 places)

/-- A fraction rounded to `places` decimals on its exact value, a half to the even decimal. With
more than 323 decimals nothing changes, and with fewer than -308 nothing is left. -/
def roundReal (x : Binary64) (places : Int) : Except Failure Binary64 :=
  match x with
  | .finite s u =>
    if 323 < places then .ok x
    else if places < -308 then .ok (.finite s .zero)
    else
      let (p, q) := tenPower places
      let rounded := Binary64.ofRatio s (nearestDiv (u.units * p) (unitsPerOne * q) * q) p
      if rounded.isFinite then .ok rounded else .error .overflow
  | _ => .ok x

/-- The number rounded to `places` decimals. -/
def round (n : Number) (places : Int) : Except Failure Number :=
  match n with
  | .whole i => .ok (.whole (if 0 ≤ places then i else roundWhole i (-places).toNat))
  | .real x => (roundReal x places).map .real

/-- The text of a number; an integer past the digit limit has none. -/
def text : Number → Except Failure String
  | .whole i =>
    match integerText? i with
    | some s => .ok s
    | none => .error .tooManyDigits
  | .real x => .ok x.text

/-- The number that a text stands for: an integer if possible, else a fraction. -/
def ofText? (s : String) : Option Number :=
  match readWhole? s with
  | some i => some (.whole i)
  | none => (readFraction? s).map .real

end Number

end Criterion

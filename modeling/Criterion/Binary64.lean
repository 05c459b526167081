/-!
# Binary64 numbers

A fractional number of the language is a binary64 number. A finite one is stored
as its sign and its magnitude counted in units of `2^-1074`, the smallest step of
the format: comparing two of them, or one with an integer, is then comparing
integers, and every operation is the exact result rounded once.

* `nearestDiv`: the quotient rounded to the nearest integer, a half to the even one.
* `Magnitude`: the magnitudes that the format has: at most 53 significant bits, below the limit.
* `roundUnits`: the multiple of the unit with at most 53 significant bits that is
  nearest to a quotient.
* `Binary64.ofRatio`: the binary64 number nearest to a quotient; too large a
  magnitude gives an infinity.
-/

namespace Criterion

/-- `n / d` rounded to the nearest integer, a half to the even one. -/
def nearestDiv (n d : Nat) : Nat :=
  let q := n / d
  let r := n % d
  if 2 * r < d then q
  else if d < 2 * r then q + 1
  else q + q % 2

/-- How many units make one. -/
def unitsPerOne : Nat := Nat.pow 2 1074

/-- The first magnitude, in units, that is too large for a finite number. -/
def unitsLimit : Nat := Nat.pow 2 2098

/-- The step between neighbouring numbers at a magnitude: 53 significant bits are kept. -/
def unitStep (u : Nat) : Nat := Nat.pow 2 (u.log2 - 52)

/-- Whether the format has a magnitude: it is below the limit, and a multiple of its step. -/
@[irreducible]
def Magnitude.isValid (units : Nat) : Bool := units < unitsLimit && units % unitStep units == 0

/-- The magnitude of a finite number, in units of `2^-1074`. -/
structure Magnitude where
  units : Nat
  valid : Magnitude.isValid units = true
deriving DecidableEq

namespace Magnitude

def of? (units : Nat) : Option Magnitude :=
  if h : isValid units = true then some ⟨units, h⟩ else none

def zero : Magnitude := ⟨0, by decide +kernel⟩

end Magnitude

inductive Binary64 where
  | nan
  | infinite (negative : Bool)
  | finite (negative : Bool) (magnitude : Magnitude)
deriving DecidableEq

/-- `n / d` units rounded to 53 significant bits, a half to the even neighbour. -/
def roundUnits (n d : Nat) : Nat :=
  let step := unitStep (n / d)
  nearestDiv n (d * step) * step

/-- The integer with the given sign and magnitude. -/
def signed (negative : Bool) (n : Nat) : Int :=
  if negative then -(n : Int) else n

namespace Binary64

def zero : Binary64 := .finite false .zero

/-- A magnitude that is already rounded; past the limit it is an infinity. -/
def ofUnits (negative : Bool) (units : Nat) : Binary64 :=
  match Magnitude.of? units with
  | some u => .finite negative u
  | none => .infinite negative

/-- The number nearest to `n / d`. -/
def ofRatio (negative : Bool) (n d : Nat) : Binary64 :=
  ofUnits negative (roundUnits (n * unitsPerOne) d)

/-- The number nearest to an integer. -/
def ofInt (i : Int) : Binary64 :=
  ofRatio (i < 0) i.natAbs 1

def isNaN : Binary64 → Bool
  | .nan => true
  | _ => false

def isFinite : Binary64 → Bool
  | .finite .. => true
  | _ => false

/-- Whether the number is zero, of either sign. -/
def isZero : Binary64 → Bool
  | .finite _ u => u.units == 0
  | _ => false

/-- The value of a finite number in units. -/
def units? : Binary64 → Option Int
  | .finite s u => some (signed s u.units)
  | _ => none

/-- Whether the number is finite and has no fractional part. -/
def isWhole (x : Binary64) : Bool :=
  match x.units? with
  | some u => u % unitsPerOne == 0
  | none => false

def neg : Binary64 → Binary64
  | .nan => .nan
  | .infinite s => .infinite !s
  | .finite s u => .finite (!s) u

def abs : Binary64 → Binary64
  | .nan => .nan
  | .infinite _ => .infinite false
  | .finite _ u => .finite false u

/-- The sum. Opposite infinities have none; an exact zero is negative only if both terms are. -/
def add : Binary64 → Binary64 → Binary64
  | .nan, _ => .nan
  | _, .nan => .nan
  | .infinite s, .infinite t => if s = t then .infinite s else .nan
  | .infinite s, .finite .. => .infinite s
  | .finite .., .infinite t => .infinite t
  | .finite s u, .finite t v =>
    let sum := signed s u.units + signed t v.units
    if sum = 0 then .finite (s && t) .zero
    else ofUnits (sum < 0) (roundUnits sum.natAbs 1)

def sub (x y : Binary64) : Binary64 := add x y.neg

/-- The product. Zero times an infinity has none. -/
def mul : Binary64 → Binary64 → Binary64
  | .nan, _ => .nan
  | _, .nan => .nan
  | .infinite s, .infinite t => .infinite (s != t)
  | .infinite s, .finite t v => if v.units = 0 then .nan else .infinite (s != t)
  | .finite s u, .infinite t => if u.units = 0 then .nan else .infinite (s != t)
  | .finite s u, .finite t v => ofUnits (s != t) (roundUnits (u.units * v.units) unitsPerOne)

/-- The quotient. `0 / 0` and a quotient of infinities have none. -/
def div : Binary64 → Binary64 → Binary64
  | .nan, _ => .nan
  | _, .nan => .nan
  | .infinite _, .infinite _ => .nan
  | .infinite s, .finite t _ => .infinite (s != t)
  | .finite s _, .infinite t => .finite (s != t) .zero
  | .finite s u, .finite t v =>
    if v.units = 0 then (if u.units = 0 then .nan else .infinite (s != t))
    else ofUnits (s != t) (roundUnits (u.units * unitsPerOne) v.units)

/-- A number's place on the extended line, for comparison: the infinities lie outside all units. -/
def place? : Binary64 → Option Int
  | .nan => none
  | .infinite s => some (signed s unitsLimit)
  | .finite s u => some (signed s u.units)

/-- How two numbers compare; not a number compares with nothing. -/
def compare? (x y : Binary64) : Option Ordering :=
  match x.place?, y.place? with
  | some a, some b => some (compare a b)
  | _, _ => none

/-- How a number compares with an integer, exactly. -/
def compareInt? (x : Binary64) (i : Int) : Option Ordering :=
  match x with
  | .nan => none
  | .infinite s => some (if s then .lt else .gt)
  | .finite s u => some (compare (signed s u.units) (i * unitsPerOne))

/-- The 64-bit pattern: sign, eleven exponent bits, fifty-two fraction bits. -/
def toBits : Binary64 → UInt64
  | .nan => 0x7ff8000000000000
  | .infinite s => (if s then 0xfff0000000000000 else 0x7ff0000000000000)
  | .finite s u =>
    let magnitude :=
      if u.units < Nat.pow 2 52 then u.units
      else
        let shift := u.units.log2 - 52
        ((shift + 1) <<< 52) + (u.units >>> shift - Nat.pow 2 52)
    UInt64.ofNat (magnitude + if s then Nat.pow 2 63 else 0)

/-- The number with a given 64-bit pattern. -/
def ofBits (b : UInt64) : Binary64 :=
  let n := b.toNat
  let negative := n >>> 63 == 1
  let exponent := (n >>> 52) % Nat.pow 2 11
  let fraction := n % Nat.pow 2 52
  if exponent = 2047 then (if fraction = 0 then .infinite negative else .nan)
  else if exponent = 0 then ofUnits negative fraction
  else ofUnits negative ((Nat.pow 2 52 + fraction) <<< (exponent - 1))

/-- Two to this power is the first magnitude that is outside of the format. -/
def rangeBits : Nat := 1024

/-- The largest natural number up to a number, but at most `limit`. -/
def wholeUpTo (limit : Nat) : Binary64 → Nat
  | .infinite false => limit
  | .finite false u => min (u.units / unitsPerOne) limit
  | _ => 0

/-- Whether a power leaves the format for certain: the exact power with a natural exponent `k` up to
`y` is `2^rangeBits` or more in magnitude. No larger `k` than `rangeBits` is tried, since that is
enough for a base of two or more. -/
def powerOverflows (x y : Binary64) : Bool :=
  match x with
  | .finite _ u =>
    let k := wholeUpTo rangeBits y
    Nat.pow 2 rangeBits * Nat.pow unitsPerOne k ≤ Nat.pow u.units k
  | _ => false

/-- `x` to the power `y`, for a result that is finite. That it overflows is decided, where an exact
power tells it, before any approximation. -/
def pow? (x y : Binary64) : Option Binary64 :=
  if powerOverflows x y then none
  else
    let power := ofBits ((Float.ofBits x.toBits).pow (Float.ofBits y.toBits)).toBits
    if power.isFinite then some power else none

end Binary64

end Criterion

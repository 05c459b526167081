import Criterion.Binary64
import Criterion.Text.Blank
import Criterion.Text.Digit

/-!
# Numbers as decimal text

Integers are written in decimal digits, up to `digitLimit` of them. A fractional number is
written with the fewest digits that read back as the same number, and of those the nearest.

* `Binary64.shortest`: the digits and the exponent of that decimal.
* `Binary64.text`: its layout; the exponent is written out below `10^-4` and from `10^16` on.
* `readWhole?`, `readFraction?`: the integers and fractions that a text stands for.
-/

namespace Criterion

/-- Integers with more decimal digits than this are not converted to or from text. -/
def digitLimit : Nat := 4300

/-- The decimal digits of a natural number. -/
def naturalText (n : Nat) : String := String.ofList (Nat.toDigits 10 n)

def integerText (i : Int) : String :=
  if i < 0 then "-" ++ naturalText i.natAbs else naturalText i.natAbs

/-- The decimal text of an integer, unless it is past the limit. -/
def integerText? (i : Int) : Option String :=
  if i.natAbs < Nat.pow 10 digitLimit then some (integerText i) else none

/-- A natural number in `width` digits at least. -/
def padded (width n : Nat) : String :=
  let digits := Nat.toDigits 10 n
  String.ofList (List.replicate (width - digits.length) '0' ++ digits)

/-! ## The shortest decimal -/

/-- A decimal: `digits * 10^exponent`. -/
structure Decimal where
  digits : Nat
  exponent : Int
deriving DecidableEq

/-- `10^e` as a quotient of natural numbers. -/
def tenPower (e : Int) : Nat × Nat :=
  if 0 ≤ e then (Nat.pow 10 e.toNat, 1) else (1, Nat.pow 10 (-e).toNat)

namespace Decimal

/-- Four times the decimal in units, times the second component. -/
def scaled (d : Decimal) : Nat × Nat :=
  let (p, q) := tenPower d.exponent
  (4 * d.digits * p * unitsPerOne, q)

/-- Four times the two ends of the interval that rounds to the magnitude `u`. The step below a
power of two is half the step above it. -/
def interval (u : Nat) : Nat × Nat :=
  let step := unitStep u
  let below := if step ≠ 1 ∧ u = Nat.pow 2 52 * step then step else 2 * step
  (4 * u - below, 4 * u + 2 * step)

/-- Whether the decimal reads back as the magnitude `u`; the ends belong to the even one. -/
def readsBack (u : Nat) (d : Decimal) : Bool :=
  let (n, q) := d.scaled
  let (low, high) := interval u
  if (u / unitStep u) % 2 = 0 then low * q ≤ n && n ≤ high * q
  else low * q < n && n < high * q

/-- Four times the distance of the decimal to the magnitude `u`, times its denominator. -/
def distance (u : Nat) (d : Decimal) : Nat :=
  let (n, q) := d.scaled
  ((n : Int) - (4 * u * q : Nat)).natAbs

/-- The exponent of the leading digit of the magnitude `u`, which is not zero. -/
def leading (u : Nat) : Int :=
  ((Nat.toDigits 10 (u * Nat.pow 10 400 / unitsPerOne)).length : Int) - 401

/-- The decimal with the given exponent that reads back, if there is one: of the two
neighbours of the magnitude on that grid the nearer one, and of two equally near the even one. -/
def onGrid? (u : Nat) (exponent : Int) : Option Decimal :=
  let (p, q) := tenPower exponent
  let lower : Decimal := ⟨u * q / (unitsPerOne * p), exponent⟩
  let upper : Decimal := ⟨lower.digits + 1, exponent⟩
  match readsBack u lower, readsBack u upper with
  | true, true =>
    match compare (lower.distance u) (upper.distance u) with
    | .lt => some lower
    | .gt => some upper
    | .eq => if lower.digits % 2 = 0 then some lower else some upper
  | true, false => some lower
  | false, true => some upper
  | false, false => none

end Decimal

/-- The decimal with the fewest digits that reads back as a magnitude other than zero;
seventeen digits always suffice. -/
def Binary64.shortest (u : Nat) : Decimal :=
  let leading := Decimal.leading u
  ((List.range 17).findSome? fun n : Nat => Decimal.onGrid? u (leading - n)).getD ⟨0, 0⟩

/-- The layout of a decimal as text: positional with a point, or one digit before the point
and an exponent of two digits at least. -/
def Decimal.text (d : Decimal) : String :=
  let digits := Nat.toDigits 10 d.digits
  let digits := (digits.reverse.dropWhile (· == '0')).reverse
  let point := (Nat.toDigits 10 d.digits).length + d.exponent
  if point ≤ -4 ∨ 16 < point then
    let fraction := match digits.drop 1 with
      | [] => []
      | rest => '.' :: rest
    let exponent := point - 1
    String.ofList (digits.take 1 ++ fraction ++ ['e', if exponent < 0 then '-' else '+'])
      ++ padded 2 exponent.natAbs
  else if point ≤ 0 then
    String.ofList ('0' :: '.' :: List.replicate (-point).toNat '0' ++ digits)
  else
    let whole := digits.take point.toNat
    let whole := whole ++ List.replicate (point.toNat - whole.length) '0'
    let fraction := digits.drop point.toNat
    String.ofList (whole ++ '.' :: if fraction.isEmpty then ['0'] else fraction)

/-- The text of a fractional number. -/
def Binary64.text : Binary64 → String
  | .nan => "nan"
  | .infinite s => if s then "-inf" else "inf"
  | .finite s u =>
    (if s then "-" else "") ++ if u.units = 0 then "0.0" else (Binary64.shortest u.units).text

/-! ## Reading numbers -/

/-- A text as a number reader sees it: digits of every script as ASCII digits, without the
surrounding blanks. A character that no number holds becomes a question mark. -/
def numeral (s : String) : List Char :=
  Text.trimWhere Text.isNumberBlank <| s.toList.map fun c =>
    if c.toNat < 127 ∨ Text.isNumberBlank c then c
    else match Text.digitValue? c with
      | some d => Char.ofNat (48 + d)
      | none => '?'

/-- Digits without the underscores between them; an underscore anywhere else is refused. -/
def dropUnderscores? (previous : Char) : List Char → Option (List Char)
  | [] => some []
  | '_' :: c :: rest =>
    if previous.isDigit && c.isDigit then (dropUnderscores? c rest).map (c :: ·) else none
  | c :: rest => if c = '_' then none else (dropUnderscores? c rest).map (c :: ·)

/-- The number that decimal digits stand for. -/
def digitsValue (cs : List Char) : Nat :=
  cs.foldl (fun n c => 10 * n + (c.toNat - 48)) 0

/-- A sign, if there is one, and the rest. -/
def takeSign : List Char → Bool × List Char
  | '-' :: rest => (true, rest)
  | '+' :: rest => (false, rest)
  | cs => (false, cs)

/-- The integer that a text stands for: a sign and at most `digitLimit` digits. -/
def readWhole? (s : String) : Option Int :=
  let (negative, rest) := takeSign (numeral s)
  match dropUnderscores? ' ' rest with
  | some digits =>
    if digits.isEmpty ∨ !digits.all Char.isDigit ∨ digitLimit < digits.length then none
    else some (signed negative (digitsValue digits))
  | none => none

/-- The number nearest to `n * 10^e`. Exponents that decide the result are not expanded. -/
def Binary64.ofDecimal (negative : Bool) (n : Nat) (e : Int) : Binary64 :=
  let size := (Nat.toDigits 10 n).length + e
  if n = 0 ∨ size < -330 then .finite negative .zero
  else if 330 < size then .infinite negative
  else
    let (p, q) := tenPower e
    Binary64.ofRatio negative (n * p) q

/-- An exponent: nothing, or `e`, a sign and digits. -/
def readExponent? : List Char → Option Int
  | [] => some 0
  | c :: rest =>
    if c = 'e' ∨ c = 'E' then
      let (negative, digits) := takeSign rest
      if digits.isEmpty ∨ !digits.all Char.isDigit then none
      else some (signed negative (digitsValue digits))
    else none

/-- Digits with at most one point and at least one digit, and an exponent. -/
def readUnsigned? (negative : Bool) (cs : List Char) : Option Binary64 :=
  let whole := cs.takeWhile Char.isDigit
  let rest := cs.dropWhile Char.isDigit
  let (fraction, rest) := match rest with
    | '.' :: more => (more.takeWhile Char.isDigit, more.dropWhile Char.isDigit)
    | _ => ([], rest)
  if whole.isEmpty && fraction.isEmpty then none
  else (readExponent? rest).map fun e =>
    Binary64.ofDecimal negative (digitsValue (whole ++ fraction)) (e - fraction.length)

/-- The fractional number that a text stands for; `inf`, `infinity` and `nan` in any case too. -/
def readFraction? (s : String) : Option Binary64 :=
  match dropUnderscores? ' ' (numeral s) with
  | none => none
  | some cs =>
    let (negative, rest) := takeSign cs
    let word := String.ofList (rest.map Char.toLower)
    if word = "inf" ∨ word = "infinity" then some (.infinite negative)
    else if word = "nan" then some .nan
    else readUnsigned? negative rest

end Criterion

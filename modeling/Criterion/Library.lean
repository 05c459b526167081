import Criterion.Calendar.Reading
import Criterion.Text.Case
import Criterion.Value.Shown

/-!
# What the builtin functions compute

An argument of another kind than the function is for gives null. The functions on numbers take
either a list of them or the numbers themselves.

* `Builtin.apply`: the answer of a builtin for arguments of the right number.
* `Library.flatten`, `Library.distinct`, `Library.positions`, `Library.cut`: the list and text
  functions with laws of their own.
-/

namespace Criterion

namespace Library

/-- The elements of the one list among the arguments, or the arguments themselves. -/
def items : List Value → List Value
  | [.list elements] => elements
  | arguments => arguments

/-- The numbers that some values are, if all of them are numbers. -/
def numbers? : List Value → Option (List Number)
  | [] => some []
  | .number n :: rest => (numbers? rest).map (n :: ·)
  | _ :: _ => none

/-- The numbers that a function is to combine; none at all give nothing. -/
def operands? (arguments : List Value) : Option (List Number) :=
  match numbers? (items arguments) with
  | some [] => none
  | ns => ns

/-- The sum from left to right, starting from the integer zero. -/
def sum (ns : List Number) : Except Failure Number := ns.foldlM Number.add (.whole 0)

/-- The first of the smallest numbers. -/
def least : List Number → Option Number
  | [] => none
  | n :: rest => some (rest.foldl (fun m n => if n.lt m then n else m) n)

/-- The first of the largest numbers. -/
def greatest : List Number → Option Number
  | [] => none
  | n :: rest => some (rest.foldl (fun m n => if m.lt n then n else m) n)

def mean (ns : List Number) : Except Failure Number := do
  (← sum ns).div (.whole ns.length)

mutual

/-- The values in a value that are not lists, from left to right. -/
def leaves : Value → List Value
  | .list vs => flatten vs
  | v => [v]

/-- The values in a list, at any depth, that are not lists. -/
def flatten : List Value → List Value
  | [] => []
  | v :: rest => leaves v ++ flatten rest

end

/-- The elements that equal no earlier one that was kept. -/
def distinct (vs : List Value) : List Value :=
  vs.foldl (fun kept v => if v.isAmong kept then kept else kept ++ [v]) []

/-- The positions, from `next` on, of the elements that equal a value. -/
def positions (v : Value) (next : Nat) : List Value → List Nat
  | [] => []
  | w :: rest =>
    if w.eqv v then next :: positions v (next + 1) rest else positions v (next + 1) rest

/-- The lists that some values are, one after the other, if all of them are lists. -/
def concatenate? : List Value → Option (List Value)
  | [] => some []
  | .list vs :: rest => (concatenate? rest).map (vs ++ ·)
  | _ :: _ => none

/-- Where a cut begins: positions count from one, and negative ones from the end. -/
def cutStart (length : Nat) (isPositive : Bool) (start : Int) : Nat :=
  (if isPositive then start - 1 else length + start).toNat

/-- The characters from a position on, at most `count` of them. -/
def cut (cs : List Char) (offset : Nat) (count : Option Nat) : List Char :=
  match count with
  | some n => (cs.drop offset).take n
  | none => cs.drop offset

/-- Part of a text from a position that is not zero, of a length that is not negative. -/
def substring (s : Value) (start : Value) (length : Value) : Except Failure Value :=
  match s, start, length with
  | .text s, .number p, length =>
    if p.isZero then .ok .null
    else match length with
      | .null => do
        let offset ← offset s p
        return .text (String.ofList (cut s.toList offset none))
      | .number n =>
        if n.lt (.whole 0) then .ok .null
        else do
          let offset ← offset s p
          let count ← n.truncate
          return .text (String.ofList (cut s.toList offset (some count.toNat)))
      | _ => .ok .null
  | _, _, _ => .ok .null
where
  offset (s : String) (p : Number) : Except Failure Nat := do
    return cutStart s.length (Number.lt (.whole 0) p) (← p.truncate)

/-- Whether a list begins with another. -/
def startsWith : List Char → List Char → Bool
  | _, [] => true
  | [], _ :: _ => false
  | c :: cs, d :: ds => c == d && startsWith cs ds

/-- Whether a list contains another without a gap. -/
def contains (cs ds : List Char) : Bool :=
  startsWith cs ds || match cs with
    | [] => false
    | _ :: rest => contains rest ds

/-- The answer of a function of two texts. -/
def onTexts (f : List Char → List Char → Bool) : Value → Value → Value
  | .text s, .text t => .boolean (f s.toList t.toList)
  | _, _ => .null

/-- The text of any value but null. -/
def string : Value → Except Failure Value
  | .null => .ok .null
  | .boolean b => .ok (.text (if b then "true" else "false"))
  | v => v.plainText.map .text

/-- The number that a value is or that a text stands for. -/
def number : Value → Value
  | .number n => .number n
  | .text s => .ofOption ((Number.ofText? s).map .number)
  | _ => .null

/-- A number rounded to a number of decimals that is an integer. -/
def decimal (n places : Value) : Except Failure Value :=
  match n, places with
  | .number n, .number p => do
    let whole ← p.truncate
    if p.eqv (.whole whole) then return .number (← n.round whole) else return .null
  | _, _ => .ok .null

/-- The largest magnitude of an integer in a call for a date. -/
def datePartLimit : Int := 2147483648

/-- The date of a year, a month and a day; null if the calendar has none. -/
def dateOfParts (parts : List Number) : Except Failure Value :=
  match parts.mapM Number.truncate with
  | .error .notANumber => .ok .null
  | .error e => .error e
  | .ok wholes =>
    if wholes.any fun i => i < -datePartLimit || datePartLimit ≤ i then .error .overflow
    else match wholes with
      | [y, m, d] =>
        if y < 0 ∨ m < 0 ∨ d < 0 then .ok .null
        else .ok (.ofOption ((Date.of? y.toNat m.toNat d.toNat).map .date))
      | _ => .ok .null

/-- A date from a date with time, a date, or its text. -/
def dateOf : Value → Value
  | .moment m => .date m.date
  | .date d => .date d
  | .text s => .ofOption ((Date.ofText? s).map .date)
  | _ => .null

/-- A time from a date with time, a time, or its text. -/
def timeOf : Value → Value
  | .moment m => .time m.time.withoutOffset
  | .time t => .time t
  | .text s => .ofOption ((Time.ofText? s).map .time)
  | _ => .null

/-- A date with time from one or its text. -/
def momentOf : Value → Value
  | .moment m => .moment m
  | .text s => .ofOption ((Moment.ofText? s).map .moment)
  | _ => .null

/-- A date from one value or three numbers. -/
def date : List Value → Except Failure Value
  | [v] => .ok (dateOf v)
  | [y, m, d] =>
    match numbers? [y, m, d] with
    | some parts => dateOfParts parts
    | none => .ok .null
  | arguments => .error (.dateArguments arguments.length)

end Library

/-- The answer of a builtin, for arguments of a number that it takes. -/
def Builtin.apply : Builtin → List Value → Except Failure Value
  | .abs, [.number n] => .ok (.number n.abs)
  | .floor, [.number n] => n.floor.map .whole
  | .ceiling, [.number n] => n.ceiling.map .whole
  | .decimal, [n, places] => Library.decimal n places
  | .negation, [.boolean b] => .ok (.boolean !b)
  | .stringLength, [.text s] => .ok (.whole s.length)
  | .upperCase, [.text s] => .ok (.text (Text.upper s))
  | .lowerCase, [.text s] => .ok (.text (Text.lower s))
  | .substring, [s, start] => Library.substring s start .null
  | .substring, [s, start, length] => Library.substring s start length
  | .substring, arguments => .error (.tooManyArguments "substring" 3 arguments.length)
  | .contains, [s, t] => .ok (Library.onTexts Library.contains s t)
  | .startsWith, [s, t] => .ok (Library.onTexts Library.startsWith s t)
  | .endsWith, [s, t] => .ok (Library.onTexts (fun s t => Library.startsWith s.reverse t.reverse) s t)
  | .string, [v] => Library.string v
  | .number, [v] => .ok (Library.number v)
  | .count, [.list vs] => .ok (.whole vs.length)
  | .sum, arguments => orNull (Library.operands? arguments) Library.sum
  | .min, arguments => .ok (.ofOption ((Library.operands? arguments).bind Library.least |>.map .number))
  | .max, arguments => .ok (.ofOption ((Library.operands? arguments).bind Library.greatest |>.map .number))
  | .mean, arguments => orNull (Library.operands? arguments) Library.mean
  | .listContains, [.list vs, v] => .ok (.boolean (v.isAmong vs))
  | .append, .list vs :: rest => .ok (.list (vs ++ rest))
  | .concatenate, arguments => .ok (.ofOption ((Library.concatenate? arguments).map .list))
  | .reverse, [.list vs] => .ok (.list vs.reverse)
  | .distinctValues, [.list vs] => .ok (.list (Library.distinct vs))
  | .indexOf, [.list vs, v] => .ok (.list ((Library.positions v 1 vs).map fun i : Nat => .whole i))
  | .flatten, [.list vs] => .ok (.list (Library.flatten vs))
  | .date, arguments => Library.date arguments
  | .time, [v] => .ok (Library.timeOf v)
  | .dateAndTime, [v] => .ok (Library.momentOf v)
  | _, _ => .ok .null
where
  /-- The answer of a function on numbers, null if there are none. -/
  orNull (ns : Option (List Number)) (f : List Number → Except Failure Number) :
      Except Failure Value :=
    match ns with
    | some ns => (f ns).map .number
    | none => .ok .null

end Criterion

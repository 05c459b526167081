import Criterion.Library
import Criterion.Value.Field

/-!
# The functions of values

Values offer functions of their own, which can be called like any other. A list's functions may
change the list, and some functions ask for the time of the day: what values alone do not tell is
left open here (`Failure.beyond`).

* `Value.callMethod`: what a value's own function answers.
-/

namespace Criterion

namespace Value

/-- The answer of a function that takes no argument. -/
def answerAlone (v : Value) (arguments : List Value) : Except Failure Value :=
  if arguments.isEmpty then .ok v else .error .misusedCall

/-- The offset of a time from universal time and the name of its zone; a fixed offset is never
that of a summer. -/
def offsetMethod? (offset : Option Offset) : String → Option Value
  | "utcoffset" => some (.ofOption (offset.map fun o => .duration o.duration))
  | "tzname" => some (.ofOption (offset.map fun o => .text o.zoneName))
  | "dst" => some .null
  | _ => none

/-- The functions of a date that take no argument. -/
def dateMethod? (d : Date) : String → Option Value
  | "weekday" => some (.whole d.weekday)
  | "isoweekday" => some (.whole (d.weekday + 1))
  | "toordinal" => some (.whole d.ordinal)
  | _ => none

/-- The functions of a date with a time that take no argument. -/
def momentMethod? (m : Moment) (name : String) : Option Value :=
  match name with
  | "date" => some (.date m.date)
  | "time" => some (.time m.time.withoutOffset)
  | "timetz" => some (.time m.time)
  | _ => (dateMethod? m.date name).or (offsetMethod? m.time.offset name)

/-- The functions of a number that take no argument. -/
def numberMethod? (n : Number) (name : String) : Option Value :=
  match n, name with
  | n, "conjugate" => some (.number n)
  | .whole i, "bit_length" => some (.whole (if i = 0 then 0 else i.natAbs.log2 + 1))
  | .whole i, "bit_count" => some (.whole ((Nat.toDigits 2 i.natAbs).count '1'))
  | .real x, "is_integer" => some (.boolean x.isWhole)
  | _, _ => none

/-- The functions of a value that take no argument and whose answers are told here. -/
def loneMethod? (receiver : Value) (name : String) : Option Value :=
  match receiver with
  | .boolean b => numberMethod? (Number.ofBool b) name
  | .number n => numberMethod? n name
  | .text s => match name with
    | "upper" => some (.text (Text.upper s))
    | "lower" => some (.text (Text.lower s))
    | _ => none
  | .date d => if name = "isoformat" then some (.text d.text) else dateMethod? d name
  | .time t => offsetMethod? t.offset name
  | .moment m => momentMethod? m name
  | .duration d => if name = "total_seconds" then some (.number (.real d.totalSeconds)) else none
  | _ => none

/-- How many arguments the functions of lists take. -/
def listArguments (name : String) : List Nat :=
  match name with
  | "clear" | "copy" | "reverse" | "sort" => [0]
  | "append" | "count" | "extend" | "remove" => [1]
  | "insert" => [2]
  | "pop" => [0, 1]
  | "index" => [1, 2, 3]
  | _ => []

/-- The answer of a list's function with arguments of a number that it takes. -/
def listMethod (items : List Value) (name : String) (arguments : List Value) :
    Except Failure Value :=
  match arguments with
  | [v] => match name with
    | "count" => .ok (.whole (items.countP (·.eqv v)))
    | "index" => (items.findIdx? (·.eqv v)).elim (.error .absentItem) fun i => .ok (.whole i)
    | _ => .error .beyond
  | _ => .error .beyond

/-- The answer of a function's body, which takes the list of the arguments. -/
def callBody (f : Function) (arguments : List Value) : Except Failure Value :=
  match f, arguments with
  | .builtin b, [.list vs] => if b.arity.admits vs.length then b.apply vs else .error .beyond
  | _, [_] => .error .beyond
  | _, _ => .error .misusedCall

/-- The answers of text's functions that look for text at an end. -/
def textMethod (s name : String) (arguments : List Value) : Except Failure Value :=
  match arguments with
  | [.text t] => match name with
    | "startswith" => .ok (.boolean (Library.startsWith s.toList t.toList))
    | "endswith" =>
      .ok (.boolean (Library.startsWith s.toList.reverse t.toList.reverse))
    | _ => .error .beyond
  | [] | [_] => .error (if name = "startswith" ∨ name = "endswith" then .misusedCall else .beyond)
  | _ => .error .beyond

/-- A zone tells the offset and its name for any date with a time, or for none. -/
def zoneMethod (o : Offset) (name : String) (arguments : List Value) : Except Failure Value :=
  match offsetMethod? (some o) name with
  | none => .error .beyond
  | some v => match arguments with
    | [.null] | [.moment _] => .ok v
    | _ => .error .misusedCall

/-- The answer of a value's own function that takes arguments. -/
def argumentMethod (receiver : Value) (name : String) (arguments : List Value) :
    Except Failure Value :=
  match receiver with
  | .text s => textMethod s name arguments
  | .time t => if name = "isoformat" ∧ arguments.isEmpty then .ok (.text t.text) else .error .beyond
  | .moment m =>
    if name = "isoformat" ∧ arguments.isEmpty then .ok (.text m.text) else .error .beyond
  | .zone o => zoneMethod o name arguments
  | .list items =>
    if (listArguments name).contains arguments.length then listMethod items name arguments
    else .error .misusedCall
  | .function f => callBody f arguments
  | _ => .error .beyond

/-- The answer of a value's own function. -/
def callMethod (receiver : Value) (name : String) (arguments : List Value) :
    Except Failure Value :=
  match receiver.loneMethod? name with
  | some v => v.answerAlone arguments
  | none => receiver.argumentMethod name arguments

end Value

end Criterion

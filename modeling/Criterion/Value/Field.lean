import Criterion.Value.Shown

/-!
# Fields of values

A context's fields are its entries. Other values have fields of their own, such as the year of a
date or the first date of the calendar, and offer functions of their own, such as the weekday of a
date or the appending to a list. A name that starts with an underscore is a field of contexts only.

* `Value.ownField?`: a value's own field that is no function.
* `Value.methods`: the names of the functions that a value offers.
* `Value.field`: the field of a name, null if there is none.
-/

namespace Criterion

/-- Functions that text offers by name. -/
def textMethods : List String :=
  ["capitalize", "casefold", "center", "count", "encode", "endswith", "expandtabs", "find",
    "format", "format_map", "index", "isalnum", "isalpha", "isascii", "isdecimal", "isdigit",
    "isidentifier", "islower", "isnumeric", "isprintable", "isspace", "istitle", "isupper", "join",
    "ljust", "lower", "lstrip", "maketrans", "partition", "removeprefix", "removesuffix",
    "replace", "rfind", "rindex", "rjust", "rpartition", "rsplit", "rstrip", "split",
    "splitlines", "startswith", "strip", "swapcase", "title", "translate", "upper", "zfill"]

/-- Functions that lists offer by name. -/
def listMethods : List String :=
  ["append", "clear", "copy", "count", "extend", "index", "insert", "pop", "remove", "reverse",
    "sort"]

/-- Functions that integers offer by name. -/
def wholeMethods : List String :=
  ["as_integer_ratio", "bit_count", "bit_length", "conjugate", "from_bytes", "to_bytes"]

/-- Functions that fractions offer by name. -/
def realMethods : List String :=
  ["as_integer_ratio", "conjugate", "fromhex", "hex", "is_integer"]

/-- Functions that dates offer by name. -/
def dateMethods : List String :=
  ["ctime", "fromisocalendar", "fromisoformat", "fromordinal", "fromtimestamp", "isocalendar",
    "isoformat", "isoweekday", "replace", "strftime", "timetuple", "today", "toordinal", "weekday"]

/-- Functions that times of day offer by name. -/
def timeMethods : List String :=
  ["dst", "fromisoformat", "isoformat", "replace", "strftime", "tzname", "utcoffset"]

/-- Functions that dates with times offer by name. -/
def momentMethods : List String :=
  dateMethods ++ ["astimezone", "combine", "date", "dst", "now", "strptime", "time", "timestamp",
    "timetz", "tzname", "utcfromtimestamp", "utcnow", "utcoffset", "utctimetuple"]

/-- The name under which a function of a registry offers its body. -/
def bodyName : String := "fn"

/-- Functions that zones offer by name. -/
def zoneMethods : List String := ["dst", "fromutc", "tzname", "utcoffset"]

namespace Value

def dateParts? (d : Date) : String → Option Value
  | "year" => some (.whole d.year)
  | "month" => some (.whole d.month)
  | "day" => some (.whole d.day)
  | _ => none

/-- The parts of a time of day. No time is the later one of two that a clock shows alike. -/
def timeParts? (t : Time) : String → Option Value
  | "hour" => some (.whole t.hour)
  | "minute" => some (.whole t.minute)
  | "second" => some (.whole t.second)
  | "microsecond" => some (.whole t.microsecond)
  | "fold" => some (.whole 0)
  | "tzinfo" => some (.ofOption (t.offset.map .zone))
  | _ => none

def durationParts? (d : Duration) : String → Option Value
  | "days" => some (.whole d.days)
  | "seconds" => some (.whole d.seconds)
  | "microseconds" => some (.whole d.microseconds)
  | _ => none

/-- The ends of a scale and the step between its neighbours, which each of its values names. -/
def scaleField? (first last : Value) (step : Duration) : String → Option Value
  | "min" => some first
  | "max" => some last
  | "resolution" => some (.duration step)
  | _ => none

def dateField? (d : Date) (name : String) : Option Value :=
  (dateParts? d name).or (scaleField? (.date .first) (.date .last) .day name)

def timeField? (t : Time) (name : String) : Option Value :=
  (timeParts? t name).or (scaleField? (.time .midnight) (.time .last) .microsecond name)

def momentField? (m : Moment) (name : String) : Option Value :=
  ((dateParts? m.date name).or (timeParts? m.time name)).or
    (scaleField? (.moment ⟨.first, .midnight⟩) (.moment ⟨.last, .last⟩) .microsecond name)

def durationField? (d : Duration) (name : String) : Option Value :=
  (durationParts? d name).or (scaleField? (.duration .first) (.duration .last) .microsecond name)

/-- Zones that every zone names. -/
def zoneField? : String → Option Value
  | "utc" => some (.zone .utc)
  | "min" => some (.zone .first)
  | "max" => some (.zone .last)
  | _ => none

/-- The parts of a number as a complex number, and of an integer as a quotient. -/
def numberField? (n : Number) (name : String) : Option Value :=
  match n, name with
  | n, "real" => some (.number n)
  | .whole _, "imag" => some (.whole 0)
  | .real _, "imag" => some (.number (.real .zero))
  | .whole i, "numerator" => some (.whole i)
  | .whole _, "denominator" => some (.whole 1)
  | _, _ => none

/-- Name and numbers of arguments of a function of a registry. -/
def functionField? (f : Function) (name : String) : Option Value :=
  match f, name with
  | .recorder, _ => none
  | f, "name" => some (.text f.name)
  | f, "arity" => some (match f.arity.exact with
    | some n => .whole n
    | none => .null)
  | f, "min_arity" => some (.whole f.arity.least)
  | _, _ => none

/-- The names of the functions that a value offers. A function of a registry offers its body. -/
def methods : Value → List String
  | .boolean _ | .number (.whole _) => wholeMethods
  | .number (.real _) => realMethods
  | .text _ => textMethods
  | .date _ => dateMethods
  | .time _ => timeMethods
  | .moment _ => momentMethods
  | .duration _ => ["total_seconds"]
  | .zone _ => zoneMethods
  | .list _ => listMethods
  | .function .recorder => []
  | .function _ => [bodyName]
  | _ => []

/-- A value's own field, without its functions. -/
def ownField? (v : Value) (name : String) : Option Value :=
  match v with
  | .boolean b => numberField? (Number.ofBool b) name
  | .number n => numberField? n name
  | .date d => dateField? d name
  | .time t => timeField? t name
  | .moment m => momentField? m name
  | .duration d => durationField? d name
  | .zone _ => zoneField? name
  | .function f => functionField? f name
  | _ => none

/-- The field of a name, null if the value has none. -/
def field (v : Value) (name : String) : Value :=
  match v with
  | .context fields => .ofOption (Fields.get? fields name)
  | v =>
    if name.toList.head? = some '_' then .null
    else if v.methods.contains name then .method v name
    else .ofOption (v.ownField? name)

/-- The field of each element of a list, or of the value itself. -/
def fieldOrFields (v : Value) (name : String) : Value :=
  match v with
  | .list items => .list (items.map (·.field name))
  | v => v.field name

end Value

end Criterion

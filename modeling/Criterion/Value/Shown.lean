import Criterion.Value.Basic

/-!
# Values as messages show them

Messages and traces show a value in one line: text in quotes, lists and contexts with their
elements, dates and durations with their parts. An integer past the digit limit cannot be shown.

* `Value.shown`: the line of a value. Of a value's own function the line names the value's type; the place in the
  memory of the machine, which differs from run to run, stands there as zero.
* `Value.plainText`: the text that a value converts to, which for text is the text itself.
-/

namespace Criterion

/-- Parts separated by a comma and a space. -/
def commaSeparated (parts : List String) : String := ", ".intercalate parts

/-- A call with its arguments. -/
def shownCall (name : String) (arguments : List String) : String :=
  name ++ "(" ++ commaSeparated arguments ++ ")"

/-- The parts of a duration other than zero, or a zero. -/
def Duration.shown (d : Duration) : String :=
  let part (name : String) (n : Int) : List String :=
    if n = 0 then [] else [name ++ "=" ++ integerText n]
  let parts := part "days" d.days ++ part "seconds" d.seconds ++ part "microseconds" d.microseconds
  shownCall "datetime.timedelta" (if parts.isEmpty then ["0"] else parts)

def Date.shownParts (d : Date) : List String := [d.year, d.month, d.day].map naturalText

def Date.shown (d : Date) : String := shownCall "datetime.date" d.shownParts

/-- Universal time has a name; another offset is shown by its duration. -/
def Offset.shown (o : Offset) : String :=
  if o.micros = 0 then "datetime.timezone.utc" else shownCall "datetime.timezone" [o.duration.shown]

/-- Hour and minute, then second and microsecond as far as one of them is not zero. -/
def Time.shownParts (t : Time) : List String :=
  let rest :=
    if t.microsecond ≠ 0 then [t.second, t.microsecond]
    else if t.second ≠ 0 then [t.second] else []
  ([t.hour, t.minute] ++ rest).map naturalText

/-- The offset as a named part. -/
def Time.shownOffset (t : Time) : List String :=
  match t.offset with
  | some o => ["tzinfo=" ++ o.shown]
  | none => []

def Time.shown (t : Time) : String := shownCall "datetime.time" (t.shownParts ++ t.shownOffset)

def Moment.shown (m : Moment) : String :=
  shownCall "datetime.datetime" (m.date.shownParts ++ m.time.shownParts ++ m.time.shownOffset)

def boolShown (b : Bool) : String := if b then "True" else "False"

/-- The name of a function. -/
def Function.name : Function → String
  | .builtin b => b.name
  | .echo name _ => name
  | .recorder => "recorder"

def Function.arity : Function → Arity
  | .builtin b => b.arity
  | .echo _ arity => arity
  | .recorder => .atLeast 0

def Function.shown (f : Function) : String := "<builtin " ++ f.name ++ ">"

/-- The body of a function of a registry. -/
def Function.shownBody (f : Function) : String :=
  let name := "std_" ++ String.ofList (f.name.toList.map fun c => if c = ' ' then '_' else c)
  "<function populate_functions.<locals>." ++ name ++ " at 0x0>"

/-- The functions that belong to a type and not to one of its values. -/
def typeMethods : List String :=
  ["combine", "from_bytes", "fromhex", "fromisocalendar", "fromisoformat", "fromordinal",
    "fromtimestamp", "maketrans", "now", "strptime", "today", "utcfromtimestamp", "utcnow"]

namespace Value

/-- The type of a value that offers functions, as a message names it. -/
def shownType : Value → String
  | .boolean _ => "bool"
  | .number (.whole _) => "int"
  | .number (.real _) => "float"
  | .text _ => "str"
  | .date _ => "datetime.date"
  | .time _ => "datetime.time"
  | .moment _ => "datetime.datetime"
  | .duration _ => "datetime.timedelta"
  | .zone _ => "datetime.timezone"
  | .list _ => "list"
  | _ => "object"

/-- A value's own function. -/
def shownMethod (receiver : Value) (name : String) : String :=
  match receiver with
  | .function f => f.shownBody
  | v =>
    let owner := if typeMethods.contains name then "type" else v.shownType
    "<built-in method " ++ name ++ " of " ++ owner ++ " object at 0x0>"

mutual

/-- The line that shows a value. -/
def shown : Value → Except Failure String
  | .null => .ok "None"
  | .boolean b => .ok (boolShown b)
  | .number n => n.text
  | .text s => .ok (Text.quoted s)
  | .date d => .ok d.shown
  | .time t => .ok t.shown
  | .moment m => .ok m.shown
  | .duration d => .ok d.shown
  | .zone o => .ok o.shown
  | .list items => do
    let parts ← shownItems items
    return "[" ++ commaSeparated parts ++ "]"
  | .context fields => do
    let parts ← shownFields fields
    return "\x7b" ++ commaSeparated parts ++ "\x7d"
  | .function f => .ok f.shown
  | .method receiver name => .ok (receiver.shownMethod name)
  | .probe _ => .ok "<probe>"
  | .procedure => .ok "<procedure>"

/-- The lines of the elements of a list. -/
def shownItems : List Value → Except Failure (List String)
  | [] => .ok []
  | v :: rest => do
    let first ← v.shown
    let others ← shownItems rest
    return first :: others

/-- The lines of the fields of a context. -/
def shownFields : Fields → Except Failure (List String)
  | [] => .ok []
  | (k, v) :: rest => do
    let first ← v.shown
    let others ← shownFields rest
    return (Text.quoted k ++ ": " ++ first) :: others

end

/-- The text that a value other than null and the booleans converts to. -/
def plainText : Value → Except Failure String
  | .text s => .ok s
  | .date d => .ok d.text
  | .time t => .ok t.text
  | .moment m => .ok m.text
  | .duration d => .ok d.text
  | .zone o => .ok o.zoneName
  | v => v.shown

/-- The name of a value's type. -/
def typeName (v : Value) : String :=
  match v.kind with
  | .null => "Null"
  | .boolean => "boolean"
  | .number => "number"
  | .text => "string"
  | .context => "context"
  | .list => "list"
  | .moment => "dateTime"
  | .date => "date"
  | .time => "time"
  | .duration => "duration"
  | .zone => "timezone"
  | .function | .recorder | .method | .probe | .procedure => "function"

/-- Whether a value is of the type with a given name; an unknown name has no values. -/
def isInstance (v : Value) (name : String) : Bool :=
  match name with
  | "number" => v.kind == .number
  | "string" => v.kind == .text
  | "boolean" => v.kind == .boolean
  | "context" => v.kind == .context
  | "list" => v.kind == .list
  | "function" => v.isCallable
  | "date" => v.kind == .date
  | "time" => v.kind == .time
  | "dateTime" => v.kind == .moment
  | "duration" => v.kind == .duration
  | "Null" => v.kind == .null
  | "Any" => v.kind != .null
  | _ => false

end Value

end Criterion

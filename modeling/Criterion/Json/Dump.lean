import Criterion.Json.Basic
import Criterion.Syntax.Tree
import Criterion.Value.Shown

/-!
# Values and trees as JSON

Results and syntax trees are dumped for inspection. Data that JSON has stays as it is; dates and
times become their text, durations their seconds, and functions and tests the line that shows
them. In a tree, blanks and comments are left out below the root.

* `Value.toJson`, `Tree.toJson`, and `Value.ofJson` for data that is read.
-/

namespace Criterion

namespace Value

mutual

def toJson : Value → Except Failure Json
  | .null => .ok .null
  | .boolean b => .ok (.boolean b)
  | .number n => .ok (.number n)
  | .text s => .ok (.text s)
  | .date d => .ok (.text d.text)
  | .time t => .ok (.text t.text)
  | .moment m => .ok (.text m.text)
  | .duration d => .ok (.number (.real d.totalSeconds))
  | .list items => do return .array (← itemsToJson items)
  | .context fields => do return .object (← fieldsToJson fields)
  | v => v.shown.map .text

def itemsToJson : List Value → Except Failure (List Json)
  | [] => .ok []
  | v :: rest => do
    let first ← toJson v
    let others ← itemsToJson rest
    return first :: others

def fieldsToJson : Fields → Except Failure (List (String × Json))
  | [] => .ok []
  | (k, v) :: rest => do
    let first ← toJson v
    let others ← fieldsToJson rest
    return (k, first) :: others

end

mutual

/-- The value that JSON stands for. Of a repeated key the last value counts. -/
def ofJson : Json → Value
  | .null => .null
  | .boolean b => .boolean b
  | .number n => .number n
  | .text s => .text s
  | .array items => .list (itemsOfJson items)
  | .object fields => .context (Fields.ofPairs (fieldsOfJson fields))

def itemsOfJson : List Json → List Value
  | [] => []
  | j :: rest => ofJson j :: itemsOfJson rest

def fieldsOfJson : List (String × Json) → List (String × Value)
  | [] => []
  | (k, j) :: rest => (k, ofJson j) :: fieldsOfJson rest

end

end Value

/-- A position, or nothing. -/
def Json.ofNat? (n : Option Nat) : Json :=
  match n with
  | some n => .number (.whole n)
  | none => .null

/-- The two ends of a span. -/
def Span.toJson (s : Option Span) : Json :=
  .array [.ofNat? (s.map (·.start)), .ofNat? (s.map (·.stop))]

namespace Tree

mutual

/-- Type and span; of a token its text, and of a rule its parts and, if the source is not empty
and the span is known, its text. -/
def toJson (source : String) : Tree → Json
  | .token t => .object [("type", .text t.kind.shown), ("value", .text t.text),
      ("span", Span.toJson t.span)]
  | .node rule span children =>
    let text := match span with
      | some s => if source.isEmpty then [] else [("text", Json.text (s.slice source))]
      | none => []
    .object ([("type", .text rule.shown), ("span", Span.toJson span)] ++ text
      ++ [("children", .array (childrenToJson source children))])

def childrenToJson (source : String) : List Tree → List Json
  | [] => []
  | t :: rest =>
    if t.isTrivia then childrenToJson source rest
    else toJson source t :: childrenToJson source rest

end

end Tree

end Criterion

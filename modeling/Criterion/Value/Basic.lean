import Criterion.Builtin
import Criterion.Calendar.Time
import Criterion.Operator
import Criterion.Run

/-!
# Values

What expressions evaluate to. Besides data there are functions and probes: tests such as `< 5`
or `[1..5]` that wait for the value they are matched against.

* `Value.eqv`: the equality of the language. Numbers of both kinds and booleans are equal by
  their numeric value, lists element by element and contexts key by key. Probes are equal only
  if they come from one place in the source.
* `Value.standing`: how two values stand in the order of the language.
-/

namespace Criterion

/-- A function that is not tied to a value. -/
inductive Function where
  | builtin (b : Builtin)
  /-- Returns the list of its arguments. -/
  | echo (name : String) (arity : Arity)
  /-- Leaves its arguments in the record of calls and returns the first. -/
  | recorder
deriving DecidableEq

/-- The bounds of an interval, and which of them belong to it. -/
structure Interval (α : Type) where
  start : α
  stop : α
  includesStart : Bool
  includesStop : Bool

/-- A test that waits for its value. `site` is where it stands in the source; with `reports`
a match is answered by the value itself. -/
inductive Probe (α : Type) where
  /-- A comparison with an operand, which is evaluated anew at each use. -/
  | relation (site : Nat) (op : Relation) (operand : Run (List α) α) (reports : Bool)
  | interval (site : Nat) (bounds : Interval α) (reports : Bool)

inductive Value where
  | null
  | boolean (b : Bool)
  | number (n : Number)
  | text (s : String)
  | date (d : Date)
  | time (t : Time)
  | moment (m : Moment)
  | duration (d : Duration)
  /-- The zone of a time, which is its offset. -/
  | zone (o : Offset)
  | list (items : List Value)
  /-- Keys in the order of their first assignment, each once. -/
  | context (fields : List (String × Value))
  | function (f : Function)
  /-- A function that a value offers under a name. That of a function is its body. -/
  | method (receiver : Value) (name : String)
  | probe (p : Probe Value)
  /-- An operation of the language that waits for its operands. -/
  | procedure

/-- Named values in the order of their first assignment. -/
abbrev Fields := List (String × Value)

instance : Inhabited Value := ⟨.null⟩

namespace Fields

/-- The value of a key. -/
def get? (fs : Fields) (key : String) : Option Value := fs.lookup key

/-- Assigns a key: in its place if it has one, else at the end. -/
def put (key : String) (v : Value) : Fields → Fields
  | [] => [(key, v)]
  | (k, w) :: rest => if k = key then (key, v) :: rest else (k, w) :: put key v rest

/-- Assigns all pairs in turn. -/
def update (fs : Fields) (pairs : List (String × Value)) : Fields :=
  pairs.foldl (fun fs (k, v) => fs.put k v) fs

/-- The fields after the given assignments. -/
def ofPairs (pairs : List (String × Value)) : Fields := update [] pairs

end Fields

/-- A boolean as a number. -/
def Number.ofBool (b : Bool) : Number := .whole (if b then 1 else 0)

namespace Value

def whole (i : Int) : Value := .number (.whole i)

/-- Null or the value of an option. -/
def ofOption : Option Value → Value
  | some v => v
  | none => .null

/-- Null or a boolean. -/
def ofBool? : Option Bool → Value
  | some b => .boolean b
  | none => .null

mutual

/-- The equality of the language. -/
def eqv : Value → Value → Bool
  | .null, .null => true
  | .boolean a, .boolean b => a == b
  | .boolean a, .number n => (Number.ofBool a).eqv n
  | .number n, .boolean b => n.eqv (Number.ofBool b)
  | .number m, .number n => m.eqv n
  | .text s, .text t => s == t
  | .date a, .date b => a == b
  | .time a, .time b => a.compare? b == some .eq
  | .moment a, .moment b => a.compare? b == some .eq
  | .duration a, .duration b => a == b
  | .zone a, .zone b => a == b
  | .list xs, .list ys => eqvItems xs ys
  | .context es, .context fs => es.length == fs.length && eqvFields es fs
  | .function f, .function g => f == g
  | .method r a, .method s b => a == b && r.eqv s
  | .probe (.relation s o ⟨_, .ok v⟩ a), .probe (.relation t p ⟨_, .ok w⟩ b) =>
    s == t && o == p && a == b && v.eqv w
  | .probe (.relation s o ⟨_, .error e⟩ a), .probe (.relation t p ⟨_, .error f⟩ b) =>
    s == t && o == p && a == b && e == f
  | .probe (.interval s ⟨l, h, c, d⟩ a), .probe (.interval t ⟨m, i, e, f⟩ b) =>
    s == t && c == e && d == f && a == b && l.eqv m && h.eqv i
  | _, _ => false

/-- Equality of lists, element by element. -/
def eqvItems : List Value → List Value → Bool
  | [], [] => true
  | x :: xs, y :: ys => x.eqv y && eqvItems xs ys
  | _, _ => false

/-- Whether all of some fields are fields of a context. -/
def eqvFields : Fields → Fields → Bool
  | [], _ => true
  | (k, v) :: es, fs =>
    (match fs.lookup k with
      | some w => v.eqv w
      | none => false) && eqvFields es fs

end

/-- Whether a value is among the elements of a list. -/
def isAmong (v : Value) (items : List Value) : Bool := items.any (·.eqv v)

/-- The kinds of values. -/
inductive Kind where
  | null
  | boolean
  | number
  | text
  | date
  | time
  | moment
  | duration
  | zone
  | list
  | context
  | function
  | recorder
  | method
  | probe
  | procedure
deriving DecidableEq

def kind : Value → Kind
  | .null => .null
  | .boolean _ => .boolean
  | .number _ => .number
  | .text _ => .text
  | .date _ => .date
  | .time _ => .time
  | .moment _ => .moment
  | .duration _ => .duration
  | .zone _ => .zone
  | .list _ => .list
  | .context _ => .context
  | .function .recorder => .recorder
  | .function _ => .function
  | .method (.function _) _ => .procedure
  | .method .. => .method
  | .probe _ => .probe
  | .procedure => .procedure

def sameKind (a b : Value) : Bool := a.kind == b.kind

def isNumber (v : Value) : Bool := v.kind == .number

def isList (v : Value) : Bool := v.kind == .list

/-- Whether a value can be called. -/
def isCallable (v : Value) : Bool :=
  v.kind ∈ [Kind.function, .recorder, .method, .probe, .procedure]

/-- Whether a condition holds: everything but null and false does. -/
def isTrue : Value → Bool
  | .null => false
  | .boolean b => b
  | _ => true

/-- Whether a value is other than null, false, zero and the empty text, list and context. -/
def isNonzero : Value → Bool
  | .null => false
  | .boolean b => b
  | .number n => !n.isZero
  | .text s => !s.isEmpty
  | .duration d => d.micros != 0
  | .list items => !items.isEmpty
  | .context fields => !fields.isEmpty
  | _ => true

/-- How two values stand in the order of the language. Values may have an order and yet neither
be less than nor equal to the other, or have none. -/
inductive Standing where
  | ordered (o : Ordering)
  | unordered
  | incomparable
deriving DecidableEq

/-- A comparison that finds no order between two values of one kind. -/
def Standing.ofNumbers : Option Ordering → Standing
  | some o => .ordered o
  | none => .unordered

/-- A comparison of two values that may not be comparable. -/
def Standing.ofOption : Option Ordering → Standing
  | some o => .ordered o
  | none => .incomparable

mutual

/-- How two values stand: numbers and booleans by numeric value, text by code points, lists by
the first elements that differ. -/
def standing : Value → Value → Standing
  | .boolean a, .boolean b => .ofNumbers ((Number.ofBool a).compare? (Number.ofBool b))
  | .boolean a, .number n => .ofNumbers ((Number.ofBool a).compare? n)
  | .number n, .boolean b => .ofNumbers (n.compare? (Number.ofBool b))
  | .number m, .number n => .ofNumbers (m.compare? n)
  | .text s, .text t => .ordered (compare s t)
  | .date a, .date b => .ordered (compare a.ordinal b.ordinal)
  | .time a, .time b => .ofOption (a.compare? b)
  | .moment a, .moment b => .ofOption (a.compare? b)
  | .duration a, .duration b => .ordered (compare a.micros b.micros)
  | .list xs, .list ys => standingItems xs ys
  | _, _ => .incomparable

/-- How two lists stand: by the first elements that are not equal, else by their lengths. -/
def standingItems : List Value → List Value → Standing
  | [], [] => .ordered .eq
  | [], _ :: _ => .ordered .lt
  | _ :: _, [] => .ordered .gt
  | x :: xs, y :: ys => if x.eqv y then standingItems xs ys else x.standing y

end

/-- Whether `a` is less than `b`, if they are comparable. -/
def lt? (a b : Value) : Option Bool :=
  match a.standing b with
  | .ordered o => some (o == .lt)
  | .unordered => some false
  | .incomparable => none

/-- Whether `a` is at most `b`, if they are comparable. -/
def le? (a b : Value) : Option Bool :=
  match a.standing b with
  | .ordered o => some (o != .gt)
  | .unordered => some false
  | .incomparable => none

/-- Whether `a` is greater than `b`, if they are comparable. -/
def gt? (a b : Value) : Option Bool :=
  match a.standing b with
  | .ordered o => some (o == .gt)
  | .unordered => some false
  | .incomparable => none

/-- Whether `a` is at least `b`, if they are comparable. -/
def ge? (a b : Value) : Option Bool :=
  match a.standing b with
  | .ordered o => some (o != .lt)
  | .unordered => some false
  | .incomparable => none

/-- The answer of a comparison: equality always has one; the order only has one between values
of one kind that are comparable. -/
def compare? (op : Relation) (a b : Value) : Option Bool :=
  match op with
  | .equal => some (a.eqv b)
  | .differs => some (!a.eqv b)
  | .less => ordered (a.lt? b)
  | .atMost => ordered (a.le? b)
  | .greater => ordered (a.gt? b)
  | .atLeast => ordered (a.ge? b)
where
  ordered (answer : Option Bool) : Option Bool := if a.sameKind b then answer else none

end Value

end Criterion

import Criterion.Eval

/-!
# Unary tests

A list of tests decides on the value under the key `?`, without naming it. Each test is an
expression; its value determines an outcome for the tested value. The outcomes are combined from
left to right: the first one that is not null, false, zero or empty is kept, and otherwise the
last one.

* `UnaryTests.eval`: the answer of a list of tests for a value.
-/

namespace Criterion

/-- Tests in order. `negated` tests answer the opposite, and null for null. -/
structure UnaryTests where
  negated : Bool
  tests : List Expr

namespace UnaryTests

/-- The outcome so far and the next one. At first there is none. -/
def combine (soFar next : Option Value) : Option Value :=
  match soFar with
  | some v => if v.isNonzero then some v else next
  | none => next

/-- The outcome of a test's value that is no list. -/
def outcomeOf (result v : Value) : Eval Value :=
  match result with
  | .null => return .null
  | .boolean b => return .boolean b
  | .probe p => p.match v
  | w => return if w.sameKind v then .boolean (w.eqv v) else .null

/-- The outcome of an element of a test's value: a list is passed by its elements. -/
def outcomeOfElement (element v : Value) : Eval Value :=
  match element with
  | .list items => return .boolean (v.isAmong items)
  | w => outcomeOf w v

/-- The combined outcome of the elements of a test's value. -/
def outcomeOfElements (v : Value) (soFar : Option Value) : List Value → Eval (Option Value)
  | [] => return soFar
  | element :: rest => do
    let outcome ← outcomeOfElement element v
    outcomeOfElements v (combine soFar (some outcome)) rest

/-- The outcome of a test's value; an empty list has none. -/
def outcome (result v : Value) : Eval (Option Value) :=
  match result with
  | .list items => outcomeOfElements v none items
  | w => do return some (← outcomeOf w v)

/-- The combined outcome of some tests. All of them are evaluated. -/
def outcomes (registry : Fields) (scope : Scope) (v : Value) (soFar : Option Value) :
    List Expr → Eval (Option Value)
  | [] => return soFar
  | test :: rest => do
    let result ← test.eval registry scope
    let next ← outcome result v
    outcomes registry scope v (combine soFar next) rest

/-- The answer of a list of tests in a scope for a value. -/
def eval (registry : Fields) (ts : UnaryTests) (scope : Scope) (v : Value) : Eval Value := do
  match ← outcomes registry scope v none ts.tests with
  | none => return .null
  | some .null => return .null
  | some w => return if ts.negated then .boolean !w.isNonzero else w

end UnaryTests

end Criterion

import Criterion.Expr
import Criterion.Interval
import Criterion.Scope
import Criterion.Value.Arithmetic
import Criterion.Value.Method

/-!
# Evaluation

An expression is evaluated in a scope, with a registry of named values that goes before the
scope. Operands are evaluated from left to right and all of them, whatever their values. Null is
an ordinary value; only failures end an evaluation.

* `Probe.match`: the answer of a test for a value.
* `Value.call`: the answer of a function.
* `Expr.eval`: the value of an expression.
-/

namespace Criterion

/-- Evaluation leaves the arguments of the calls that are recorded. -/
abbrev Eval (α : Type) := Run (List Value) α

/-- The answer of a test whose outcome is given, for the value `v`. -/
def answer (reports : Bool) (v : Value) : Option Bool → Value
  | some true => if reports then v else .boolean true
  | some false => .boolean false
  | none => .null

/-- The answer of a probe for a value. -/
def Probe.match (p : Probe Value) (v : Value) : Eval Value :=
  match p with
  | .relation _ op operand reports => do
    let w ← operand
    return answer reports v (Value.compare? op v w)
  | .interval _ bounds reports => do
    let outcome ← Run.ofExcept (bounds.includes v)
    return answer reports v outcome

/-- Refuses a number of arguments that a function does not take. -/
def Arity.check (arity : Arity) (name : String) (given : Nat) : Except Failure Unit :=
  match arity.exact with
  | some n => if given = n then .ok () else .error (.argumentCount name n given)
  | none =>
    if arity.least ≤ given then .ok () else .error (.tooFewArguments name arity.least given)

namespace Value

/-- The answer of a function for some arguments. -/
def call (callee : Value) (arguments : List Value) : Eval Value :=
  match callee with
  | .function (.builtin b) => do
    Run.ofExcept (b.arity.check b.name arguments.length)
    Run.ofExcept (b.apply arguments)
  | .function (.echo name arity) => do
    Run.ofExcept (arity.check name arguments.length)
    return .list arguments
  | .function .recorder => do
    Run.emit arguments
    return .ofOption arguments.head?
  | .method receiver name => Run.ofExcept (receiver.callMethod name arguments)
  | .probe p =>
    match arguments with
    | [v] => p.match v
    | _ => Run.fail .misusedCall
  | .procedure => Run.fail .beyond
  | _ => Run.fail .misusedCall

/-- Whether a value passes a test of a list: a probe answers, another value must be equal. -/
def passes (v test : Value) : Eval Bool :=
  match test with
  | .probe p => do return (← p.match v).isNonzero
  | w => return w.eqv v

/-- Whether a value passes one of some tests; the first that it passes is the last one tried. -/
def passesAny (v : Value) : List Value → Eval Bool
  | [] => return false
  | test :: rest => do
    if ← v.passes test then return true else passesAny v rest

/-- Whether a value lies between two others, in either order, by the order of values. -/
def between? (v start stop : Value) : Option Bool :=
  if start.kind = .null ∨ !start.sameKind stop ∨ !start.sameKind v then none
  else do
    let low ← start.least? stop
    if ← low.le? v then
      let high ← start.greatest? stop
      v.le? high
    else return false

/-- The elements that a filter goes through: those of a list, or the value itself. -/
def elements : Value → List Value
  | .list items => items
  | v => [v]

/-- The element at a position: from one on from the start, from minus one on from the end. -/
def atPosition (items : List Value) (position : Value) : Except Failure Value :=
  match position with
  | .number n => do
    let i ← n.truncate
    if !n.eqv (.whole i) then return .null
    let place := if i < 0 then items.length + i else i - 1
    return if place < 0 then .null else .ofOption items[place.toNat]?
  | _ => .ok .null

/-- The layer over a scope in which a predicate is evaluated for an element: the element as
`item`, and the fields of a context both after `item.` and by themselves. -/
def itemLayer (item : Value) : Fields :=
  match item with
  | .context fields =>
    Fields.update (.ofPairs (("item", item) :: fields.map fun (k, v) => ("item." ++ k, v))) fields
  | _ => [("item", item)]

end Value

/-- All ways to choose one element of each list, the last list varying fastest. -/
def product {α : Type} : List (List α) → List (List α)
  | [] => [[]]
  | choices :: rest => choices.flatMap fun a => (product rest).map (a :: ·)

/-- The scopes that a loop goes through, given the values of its names. -/
def loopScopes (scope : Scope) (domains : List (String × List Value)) : List Scope :=
  (product (domains.map fun (name, values) => values.map fun v => (name, v))).map fun pairs =>
    scope.extend (.ofPairs pairs)

/-- The name under which a loop's body sees the results before it. -/
def partialKey : String := "partial"

/-- The results of a loop's body, each of which sees the ones before it. -/
def collect (body : Scope → Eval Value) (results : List Value) : List Scope → Eval (List Value)
  | [] => return results
  | scope :: rest => do
    let v ← body (scope.extend [(partialKey, .list results)])
    collect body (results ++ [v]) rest

/-- Whether a condition holds in all scopes, or in one of them; no scope after the first that
decides is tried. -/
def decideQuantifier (q : Quantifier) (condition : Scope → Eval Value) :
    List Scope → Eval Bool
  | [] => return q = .every
  | scope :: rest => do
    let v ← condition scope
    match q with
    | .every => if v.isTrue then decideQuantifier q condition rest else return false
    | .some => if v.isTrue then return true else decideQuantifier q condition rest

/-- The elements for which a predicate holds; a predicate may answer with a test of the
element. -/
def selectWhere (predicate : Scope → Eval Value) (scope : Scope) : List Value → Eval (List Value)
  | [] => return []
  | item :: rest => do
    let outcome ← predicate (scope.extend item.itemLayer)
    let holds ← match outcome with
      | .probe p => p.match item
      | v => pure v
    let others ← selectWhere predicate scope rest
    return if holds.isTrue then item :: others else others

/-- The part of a value that a filter keeps, by the tag of its condition. -/
def select (target : Value) (tag : Option Tag) (condition : Scope → Eval Value) (scope : Scope) :
    Eval Value :=
  match target with
  | .null => return .null
  | target =>
    match tag with
    | some .number => do
      let position ← condition scope
      Run.ofExcept (Value.atPosition target.elements position)
    | some .boolean => do
      let v ← condition scope
      return if v.isNonzero then .list target.elements
        else if target.isList then .list [] else .null
    | some .string => do
      let v ← condition scope
      return .list (target.elements.filter (·.eqv v))
    | _ => do return .list (← selectWhere condition scope target.elements)

/-- The value of a name: in the registry unless it is null there, else in the scope. -/
def resolveName (registry : Fields) (scope : Scope) (name : String) : Value :=
  match registry.get? name with
  | some .null => scope.resolve name
  | some v => v
  | none => scope.resolve name

/-- The elements of the list that a loop's name ranges over. -/
def domainOf (name : String) (v : Value) : Except Failure (List Value) :=
  match v with
  | .list items => .ok items
  | v => do throw (.notAList name v.typeName (← v.shown))

namespace Expr

mutual

/-- The value of an expression in a scope. -/
def eval (registry : Fields) : Expr → Scope → Eval Value
  | .null, _ => return .null
  | .boolean b, _ => return .boolean b
  | .number n, _ => return .number n
  | .text s, _ => return .text s
  | .wildcard, _ => return .boolean true
  | .name n, scope => return resolveName registry scope n
  | .registered n, _ => return .ofOption (registry.get? n)
  | .input, scope => return scope.get Scope.inputKey
  | .list items, scope => do return .list (← evalItems registry items scope)
  | .context entries, scope => do
    return .context (Fields.ofPairs (← evalEntries registry entries scope))
  | .unary op a, scope => do
    let v ← eval registry a scope
    return Value.arithmetic op (.whole 0) v
  | .arithmetic op a b, scope => do
    let v ← eval registry a scope
    let w ← eval registry b scope
    return Value.arithmetic op v w
  | .relation op a b, scope => do
    let v ← eval registry a scope
    let w ← eval registry b scope
    return answer scope.reports v (Value.compare? op v w)
  | .between a low high, scope => do
    let v ← eval registry a scope
    let start ← eval registry low scope
    let stop ← eval registry high scope
    return answer scope.reports v (v.between? start stop)
  | .member a tests, scope => do
    let v ← eval registry a scope
    let t ← eval registry tests scope
    let found ← v.passesAny t.elements
    return answer scope.reports v (some found)
  | .disjunction a b, scope => do
    let v ← eval registry a scope
    let w ← eval registry b scope
    let joined := if v.isNonzero then v else w
    return if scope.reports then joined else .boolean joined.isNonzero
  | .conjunction a b, scope => do
    let v ← eval registry a scope
    let w ← eval registry b scope
    let joined := if v.isNonzero then w else v
    return if scope.reports then joined else .boolean joined.isNonzero
  | .instanceOf a type, scope => do
    let v ← eval registry a scope
    return .boolean (v.isInstance type)
  | .choose condition yes no, scope => do
    let v ← eval registry condition scope
    if v.isTrue then eval registry yes scope
    else match no with
      | some no => eval registry no scope
      | none => return .null
  | .loop bindings body, scope => do
    let domains ← evalDomains registry bindings scope
    return .list (← collect (eval registry body) [] (loopScopes scope domains))
  | .quantified q bindings condition, scope => do
    let domains ← evalDomains registry bindings scope
    return .boolean
      (← decideQuantifier q (eval registry condition) (loopScopes scope domains))
  | .range a b, scope => do
    let v ← eval registry a scope
    let w ← eval registry b scope
    let items ← Run.ofExcept (v.range w)
    return .list (items.map .whole)
  | .call source callee arguments, scope => do
    let f ← eval registry callee scope
    if !f.isCallable then Run.fail (.notAFunction source)
    else
      let vs ← evalItems registry arguments scope
      f.call vs
  | .path target field, scope => do
    let v ← eval registry target scope
    return v.fieldOrFields field
  | .filter target condition, scope => do
    let v ← eval registry target scope
    select v condition.tag (eval registry condition) scope
  | .test site op operand, scope =>
    return .probe (.relation site op (eval registry operand scope) scope.reports)
  | .interval site includesStart start stop includesStop, scope => do
    let v ← eval registry start scope
    let w ← eval registry stop scope
    return .probe (.interval site ⟨v, w, includesStart, includesStop⟩ scope.reports)
  | .procedure, _ => return .procedure

/-- The values of some expressions, from left to right. -/
def evalItems (registry : Fields) : List Expr → Scope → Eval (List Value)
  | [], _ => return []
  | e :: rest, scope => do
    let v ← eval registry e scope
    let vs ← evalItems registry rest scope
    return v :: vs

/-- The values of the entries of a context, from left to right. -/
def evalEntries (registry : Fields) :
    List (String × Expr) → Scope → Eval (List (String × Value))
  | [], _ => return []
  | (key, e) :: rest, scope => do
    let v ← eval registry e scope
    let others ← evalEntries registry rest scope
    return (key, v) :: others

/-- The lists that the names of a loop range over, each evaluated in the scope around the
loop. -/
def evalDomains (registry : Fields) :
    List (String × Expr) → Scope → Eval (List (String × List Value))
  | [], _ => return []
  | (key, e) :: rest, scope => do
    let v ← eval registry e scope
    let items ← Run.ofExcept (domainOf key v)
    let others ← evalDomains registry rest scope
    return (key, items) :: others

end

end Expr

end Criterion

import Criterion.Memory.Function

/-!
# Evaluation in memory

An expression is evaluated as it is by values, but in memory: a list that an operand changes is
changed for all operands after it. A test evaluates its operand when it is asked, in the layers in
which it was made.

* `HeldFields`, `HeldLayers`: names and the layers that they are looked up in.
* `Held.ask`: the answer of a test.
* `Expr.act`: evaluation; tests that are asked on the way evaluate their operands by `ask`.
* `Expr.actWithin`: evaluation in which tests ask each other in turn at most so often.
-/

namespace Criterion

/-- Evaluation in memory leaves the arguments of the calls that are recorded. -/
abbrev Deed (α : Type) := Act (List Value) α

/-! ## Names -/

namespace HeldFields

/-- The first value of a key. -/
def get? (fields : HeldFields) (key : String) : Option Held := fields.lookup key

/-- Assigns a key: in its place if it has one, else at the end. -/
def put (key : String) (h : Held) : HeldFields → HeldFields
  | [] => [(key, h)]
  | (k, g) :: rest => if k = key then (key, h) :: rest else (k, g) :: put key h rest

/-- Assigns all pairs in turn. -/
def update (fields : HeldFields) (pairs : List (String × Held)) : HeldFields :=
  pairs.foldl (fun fields (key, h) => put key h fields) fields

/-- The fields after the given assignments. -/
def ofPairs (pairs : List (String × Held)) : HeldFields := update [] pairs

end HeldFields

namespace Held

/-- The field of a name, null if there is none. -/
def field (h : Held) (name : String) : Held :=
  match h with
  | .plain v => .plain (v.field name)
  | .list place =>
    if name.toList.head? = some '_' || !listMethods.contains name then .plain .null
    else .function place name
  | .context fields => (HeldFields.get? fields name).getD (.plain .null)
  | _ => .plain .null

/-- The field of each element of a list, or of the value itself. -/
def fieldOrFields (h : Held) (name : String) : Deed Held :=
  match h with
  | .list place => do Act.alloc ((← Act.items place).map (·.field name))
  | h => return h.field name

/-- A chain of fields. -/
def path : List String → Held → Deed Held
  | [], h => return h
  | name :: rest, h => do path rest (← h.fieldOrFields name)

/-- The layer over a scope in which a predicate is evaluated for an element. -/
def itemLayer (h : Held) : HeldFields :=
  match h with
  | .context fields =>
    HeldFields.update (.ofPairs (("item", h) :: fields.map fun (k, g) => ("item." ++ k, g))) fields
  | _ => [("item", h)]

end Held

namespace HeldLayers

def get? (layers : HeldLayers) (name : String) : Option Held := layers.findSome? (·.get? name)

/-- The value of a name, null if there is none. -/
def get (layers : HeldLayers) (name : String) : Held := (layers.get? name).getD (.plain .null)

/-- The value of a name that may have dots, null if there is none. -/
def resolve (layers : HeldLayers) (name : String) : Deed Held :=
  match layers.get? name with
  | some h => return h
  | none =>
    match Scope.segments name with
    | (_, []) => Held.nothing
    | (head, rest) =>
      if rest = [""] then Held.nothing
      else match layers.get? head with
        | some h => Held.path rest h
        | none => Held.nothing

/-- The value of a name: in the registry unless it is null there, else in the layers. -/
def resolveName (registry : HeldFields) (layers : HeldLayers) (name : String) : Deed Held :=
  match registry.get? name with
  | some (.plain .null) => layers.resolve name
  | some h => return h
  | none => layers.resolve name

/-- Whether tests in these layers answer with the matched value. -/
def reports (layers : HeldLayers) : Deed Bool := do
  return (← Act.outline (layers.get Scope.reportKey)).isNonzero

end HeldLayers

/-! ## Tests -/

namespace Held

/-- The answer of a test whose outcome is given, for the value that is held. -/
def answer (layers : HeldLayers) (h : Held) (outcome : Option Bool) : Deed Held := do
  match outcome with
  | some true => if ← layers.reports then return h else return .plain (.boolean true)
  | some false => return .plain (.boolean false)
  | none => return .plain .null

/-- Compares two values that are held. -/
def compare? (op : Relation) (g h : Held) : Deed (Option Bool) := do
  return Value.compare? op (← Act.value g) (← Act.value h)

/-- Whether two values that are held are equal. -/
def eqv (g h : Held) : Deed Bool := do return (← Act.value g).eqv (← Act.value h)

/-- How operands of tests are evaluated. -/
abbrev Asking := Expr → HeldLayers → Deed Held

variable (ask : Asking)

/-- The answer of a test for a value, none from what is no test. A test that values were told with
does not know the layers in which it was made. -/
def match? (test h : Held) : Option (Deed Held) :=
  match test with
  | .relation _ op operand layers => some do
    let g ← ask operand layers
    answer layers h (← compare? op h g)
  | .interval _ bounds layers => some do
    let v ← Act.value h
    let start ← Act.value bounds.start
    let stop ← Act.value bounds.stop
    let outcome ← Act.ofExcept (Interval.includes { bounds with start, stop } v)
    answer layers h outcome
  | .plain (.probe _) => some (Act.fail .beyond)
  | _ => none

/-- The answer of a function or a test. -/
def invoke (callee : Held) (arguments : List Held) : Deed Held :=
  match arguments with
  | [h] => (callee.match? ask h).getD (callee.call arguments)
  | _ => callee.call arguments

/-- Whether a value passes a test of a list. -/
def passes (h test : Held) : Deed Bool :=
  match test.match? ask h with
  | some answered => do return (← Act.outline (← answered)).isNonzero
  | none => test.eqv h

/-- Whether a value passes a test, or one of the tests of a list. -/
def passesAny (h tests : Held) : Deed Bool :=
  match tests with
  | .list place => Act.through place (fun _ test => do
      let passed ← passes ask h test
      return (passed, passed)) false
  | test => passes ask h test

/-- The elements that a filter goes through. -/
def elements : Held → Deed (List Held)
  | .list place => Act.items place
  | h => return [h]

/-- The element at a position, which is found by its number among the elements. -/
def atPosition (hs : List Held) (position : Value) : Except Failure Held := do
  match ← Value.atPosition ((List.range hs.length).map fun i : Nat => .whole i) position with
  | .number (.whole i) => return (hs[i.toNat]?).getD (.plain .null)
  | _ => return .plain .null

end Held

/-! ## Loops and filters -/

/-- The layers that a loop goes through, given the values of its names. -/
def loopLayers (layers : HeldLayers) (domains : List (String × List Held)) : List HeldLayers :=
  (product (domains.map fun (name, hs) => hs.map fun h => (name, h))).map fun pairs =>
    HeldFields.ofPairs pairs :: layers

/-- The results of a loop's body, each of which sees a list of the ones before it. -/
def collectHeld (body : HeldLayers → Deed Held) (results : List Held) :
    List HeldLayers → Deed (List Held)
  | [] => return results
  | layers :: rest => do
    let before ← Act.alloc results
    let h ← body ([(partialKey, before)] :: layers)
    collectHeld body (results ++ [h]) rest

/-- Whether a condition holds in all layers, or in some. -/
def decideHeld (q : Quantifier) (condition : HeldLayers → Deed Held) :
    List HeldLayers → Deed Bool
  | [] => return q = .every
  | layers :: rest => do
    let v ← Act.outline (← condition layers)
    match q with
    | .every => if v.isTrue then decideHeld q condition rest else return false
    | .some => if v.isTrue then return true else decideHeld q condition rest

/-- The elements for which a predicate holds; a predicate may answer with a test of the element. -/
def selectHeldWhere (ask : Held.Asking) (predicate : HeldLayers → Deed Held)
    (layers : HeldLayers) : List Held → Deed (List Held)
  | [] => return []
  | item :: rest => do
    let h ← predicate (item.itemLayer :: layers)
    let h ← (h.match? ask item).getD (pure h)
    let v ← Act.outline h
    let others ← selectHeldWhere ask predicate layers rest
    return if v.isTrue then item :: others else others

/-- The part of a value that a filter keeps, by the tag of its condition. -/
def selectHeld (ask : Held.Asking) (target : Held) (tag : Option Tag)
    (condition : HeldLayers → Deed Held) (layers : HeldLayers) : Deed Held := do
  let elements ← target.elements
  let shape ← Act.outline target
  match shape with
  | .null => Held.nothing
  | shape =>
    match tag with
    | some .number => do
      let position ← condition layers
      Act.ofExcept (Held.atPosition elements (← Act.value position))
    | some .boolean => do
      let v ← Act.outline (← condition layers)
      if v.isNonzero then Act.alloc elements
      else if shape.isList then Act.alloc [] else Held.nothing
    | some .string => do
      let v ← Act.value (← condition layers)
      let vs ← Act.values elements
      Act.alloc (((elements.zip vs).filter fun p => p.2.eqv v).map (·.1))
    | _ => do Act.alloc (← selectHeldWhere ask condition layers elements)

/-- The elements of the list that a loop's name ranges over. -/
def domainHeld (name : String) (h : Held) : Deed (List Held) :=
  match h with
  | .list place => Act.items place
  | h => do
    let _ ← Act.ofExcept (domainOf name (← Act.value h))
    return []

namespace Expr

variable (ask : Held.Asking) (registry : HeldFields)

mutual

/-- Evaluates an expression in some layers. -/
def act : Expr → HeldLayers → Deed Held
  | .null, _ => Held.nothing
  | .boolean b, _ => return .plain (.boolean b)
  | .number n, _ => return .plain (.number n)
  | .text s, _ => return .plain (.text s)
  | .wildcard, _ => return .plain (.boolean true)
  | .name n, layers => layers.resolveName registry n
  | .registered n, _ => return (registry.get? n).getD (.plain .null)
  | .input, layers => return layers.get Scope.inputKey
  | .list items, layers => do Act.alloc (← actItems items layers)
  | .context entries, layers => do
    return .context (HeldFields.ofPairs (← actEntries entries layers))
  | .unary op a, layers => do
    let v ← Act.value (← act a layers)
    return .plain (Value.arithmetic op (.whole 0) v)
  | .arithmetic op a b, layers => do
    let g ← act a layers
    let h ← act b layers
    return .plain (Value.arithmetic op (← Act.value g) (← Act.value h))
  | .relation op a b, layers => do
    let g ← act a layers
    let h ← act b layers
    Held.answer layers g (← Held.compare? op g h)
  | .between a low high, layers => do
    let h ← act a layers
    let start ← act low layers
    let stop ← act high layers
    let v ← Act.value h
    Held.answer layers h (v.between? (← Act.value start) (← Act.value stop))
  | .member a tests, layers => do
    let h ← act a layers
    let t ← act tests layers
    let found ← h.passesAny ask t
    Held.answer layers h (some found)
  | .disjunction a b, layers => do
    let g ← act a layers
    let h ← act b layers
    let joined := if (← Act.outline g).isNonzero then g else h
    if ← layers.reports then return joined
    else return .plain (.boolean (← Act.outline joined).isNonzero)
  | .conjunction a b, layers => do
    let g ← act a layers
    let h ← act b layers
    let joined := if (← Act.outline g).isNonzero then h else g
    if ← layers.reports then return joined
    else return .plain (.boolean (← Act.outline joined).isNonzero)
  | .instanceOf a type, layers => do
    let v ← Act.outline (← act a layers)
    return .plain (.boolean (v.isInstance type))
  | .choose condition yes no, layers => do
    let v ← Act.outline (← act condition layers)
    if v.isTrue then act yes layers
    else match no with
      | some no => act no layers
      | none => Held.nothing
  | .loop bindings body, layers => do
    let domains ← actDomains bindings layers
    Act.alloc (← collectHeld (act body) [] (loopLayers layers domains))
  | .quantified q bindings condition, layers => do
    let domains ← actDomains bindings layers
    return .plain (.boolean (← decideHeld q (act condition) (loopLayers layers domains)))
  | .range a b, layers => do
    let g ← act a layers
    let h ← act b layers
    let v ← Act.value g
    let items ← Act.ofExcept (v.range (← Act.value h))
    Act.alloc (items.map fun i => .plain (.whole i))
  | .call source callee arguments, layers => do
    let f ← act callee layers
    if !(← Act.outline f).isCallable then Act.fail (.notAFunction source)
    else
      let hs ← actItems arguments layers
      f.invoke ask hs
  | .path target field, layers => do
    let h ← act target layers
    h.fieldOrFields field
  | .filter target condition, layers => do
    let h ← act target layers
    selectHeld ask h condition.tag (act condition) layers
  | .test _ op operand, layers => do
    return .relation (← Act.serial) op operand layers
  | .interval _ includesStart start stop includesStop, layers => do
    let g ← act start layers
    let h ← act stop layers
    return .interval (← Act.serial) ⟨g, h, includesStart, includesStop⟩ layers
  | .procedure, _ => return .plain .procedure

/-- Evaluates some expressions, from left to right. -/
def actItems : List Expr → HeldLayers → Deed (List Held)
  | [], _ => return []
  | e :: rest, layers => do
    let h ← act e layers
    let hs ← actItems rest layers
    return h :: hs

/-- Evaluates the entries of a context, from left to right. -/
def actEntries : List (String × Expr) → HeldLayers → Deed (List (String × Held))
  | [], _ => return []
  | (key, e) :: rest, layers => do
    let h ← act e layers
    let others ← actEntries rest layers
    return (key, h) :: others

/-- Evaluates the lists that the names of a loop range over, each in the layers around the loop. -/
def actDomains : List (String × Expr) → HeldLayers → Deed (List (String × List Held))
  | [], _ => return []
  | (key, e) :: rest, layers => do
    let hs ← domainHeld key (← act e layers)
    let others ← actDomains rest layers
    return (key, hs) :: others

end

/-- Evaluates an expression; an operand of a test is evaluated with one test fewer to ask. -/
def actWithin (registry : HeldFields) : (tests : Nat) → Expr → HeldLayers → Deed Held
  | 0, _, _ => Act.fail .beyond
  | n + 1, e, layers => e.act (actWithin registry n) registry layers

end Expr

/-! ## Unary tests -/

namespace UnaryTests

variable (ask : Held.Asking)

/-- The outcome so far and the next one. At first there is none. -/
def combineHeld (soFar next : Option Held) : Deed (Option Held) :=
  match soFar with
  | some h => do return if (← Act.outline h).isNonzero then some h else next
  | none => return next

/-- The outcome of a test's value that is no list. -/
def heldOutcomeOf (result h : Held) : Deed Held := do
  match ← Act.outline result with
  | .null => Held.nothing
  | .boolean b => return .plain (.boolean b)
  | _ =>
    match result.match? ask h with
    | some answered => answered
    | none => do
      let v ← Act.value h
      let w ← Act.value result
      return .plain (if w.sameKind v then .boolean (w.eqv v) else .null)

/-- The outcome of an element of a test's value: a list is passed by its elements. -/
def heldOutcomeOfElement (element h : Held) : Deed Held :=
  match element with
  | .list place => do
    let v ← Act.value h
    return .plain (.boolean (v.isAmong (← Act.values (← Act.items place))))
  | result => heldOutcomeOf ask result h

/-- The outcome of a test's value; an empty list has none. -/
def heldOutcome (result h : Held) : Deed (Option Held) :=
  match result with
  | .list place => Act.through place (fun soFar element => do
      let next ← heldOutcomeOfElement ask element h
      return (← combineHeld soFar (some next), false)) none
  | result => do return some (← heldOutcomeOf ask result h)

variable (registry : HeldFields) (layers : HeldLayers)

/-- The combined outcome of some tests. All of them are evaluated. -/
def heldOutcomes (h : Held) (soFar : Option Held) : List Expr → Deed (Option Held)
  | [] => return soFar
  | test :: rest => do
    let result ← test.act ask registry layers
    let next ← heldOutcome ask result h
    heldOutcomes h (← combineHeld soFar next) rest

/-- The answer of a list of tests for a value. -/
def act (ts : UnaryTests) (h : Held) : Deed Held := do
  match ← heldOutcomes ask registry layers h none ts.tests with
  | none => Held.nothing
  | some h =>
    match ← Act.outline h with
    | .null => Held.nothing
    | v => return if ts.negated then .plain (.boolean !v.isNonzero) else h

end UnaryTests

/-- The value of an artifact that is an expression. -/
def Artifact.act (registry : HeldFields) (a : Artifact) (layers : HeldLayers) : Deed Held :=
  match a with
  | .expr e => e.actWithin registry Act.limit layers
  | _ => Act.fail .beyond

end Criterion

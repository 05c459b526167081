import Criterion.Memory.Held

/-!
# Functions in memory

A list's own functions change the list at its place. Builtins change no list; those that answer
with a list put the elements of their arguments into a new one.

* `Held.listFunction`: a list's own functions.
* `Held.apply`: builtins.
* `Held.call`: the call of a function that is no test.
-/

namespace Criterion

namespace Held

variable {ε : Type}

/-- The integer that a place in a list is given by. -/
def integer? : Held → Option Int
  | .plain (.number (.whole i)) => some i
  | .plain (.boolean b) => some (if b then 1 else 0)
  | _ => none

/-- Integers that count elements of a list have 63 bits and a sign. -/
def isIndex (i : Int) : Bool := -9223372036854775808 ≤ i && i < 9223372036854775808

/-- A place counted from the start, or with a negative number from behind the end, and at most the
end. -/
def placeWithin (length : Nat) (i : Int) : Nat :=
  if i < 0 then (length + i).toNat else min i.toNat length

/-- The first of some places at which an element equals the value. -/
def firstAt (v : Value) (vs : List Value) (start stop : Nat) : Option Nat :=
  ((vs.take stop).drop start).findIdx? (·.eqv v) |>.map (· + start)

/-- An element behind the ones that it is not less than and before the others. -/
def sortIn (h : Held × Value) : List (Held × Value) → List (Held × Value)
  | [] => [h]
  | other :: rest =>
    if h.2.lt? other.2 = some true then h :: other :: rest else other :: sortIn h rest

/-- Whether all of some values are in order with each other. -/
def areOrdered : List Value → Bool
  | [] => true
  | v :: rest => rest.all (fun w => match v.standing w with
    | .ordered _ => true
    | _ => false) && areOrdered rest

/-- What a list is extended by: elements, characters or keys. -/
def parts (h : Held) : Act ε (List Held) :=
  match h with
  | .list place => Act.items place
  | .plain (.text s) => return s.toList.map fun c => .plain (.text (String.ofList [c]))
  | .context fields => return fields.map fun (key, _) => .plain (.text key)
  | _ => Act.fail .misusedCall

def nothing : Act ε Held := return .plain .null

/-- The place of the first element that equals a value. -/
def find (place : Nat) (h : Held) (start stop : Nat) : Act ε Nat := do
  let vs ← Act.values (← Act.items place)
  match firstAt (← Act.value h) vs start stop with
  | some i => return i
  | none => Act.fail .absentItem

/-- Takes the element at an index out of a list; without an index the last one. -/
def takeOut (place : Nat) (i : Int) : Act ε Held := do
  if isIndex i then do
    let hs ← Act.items place
    let k := if i < 0 then i + hs.length else i
    match if k < 0 then none else hs[k.toNat]? with
    | some h =>
      Act.write place (hs.eraseIdx k.toNat)
      return h
    | none => Act.fail .absentPlace
  else Act.fail .overflow

/-- Sorts a list; of equal elements the first one stays first. Values without an order may be
compared in any order. -/
def sort (place : Nat) : Act ε Held := do
  let hs ← Act.items place
  let vs ← Act.values hs
  if areOrdered vs then do
    Act.write place (((hs.zip vs).foldl (fun sorted h => sortIn h sorted) []).map (·.1))
    nothing
  else Act.fail .beyond

/-- A function of the list at a place. -/
def listFunction (place : Nat) (name : String) (arguments : List Held) : Act ε Held := do
  let hs ← Act.items place
  match name, arguments with
  | "append", [h] => Act.write place (hs ++ [h]); nothing
  | "clear", [] => Act.write place []; nothing
  | "copy", [] => Act.alloc hs
  | "count", [h] => do
    let v ← Act.value h
    let vs ← Act.values hs
    return .plain (.whole (vs.countP (·.eqv v)))
  | "extend", [h] => do
    let others ← h.parts
    Act.write place (hs ++ others)
    nothing
  | "index", [h] => do return .plain (.whole (← find place h 0 hs.length))
  | "index", [h, start] => match start.integer? with
    | some i => do return .plain (.whole (← find place h (placeWithin hs.length i) hs.length))
    | none => Act.fail .misusedCall
  | "index", [h, start, stop] => match start.integer?, stop.integer? with
    | some i, some j => do
      let k ← find place h (placeWithin hs.length i) (placeWithin hs.length j)
      return .plain (.whole k)
    | _, _ => Act.fail .misusedCall
  | "insert", [i, h] => match i.integer? with
    | some i =>
      if isIndex i then do
        let k := placeWithin hs.length i
        Act.write place (hs.take k ++ h :: hs.drop k)
        nothing
      else Act.fail .overflow
    | none => Act.fail .misusedCall
  | "pop", [] => takeOut place (-1)
  | "pop", [i] => match i.integer? with
    | some i => takeOut place i
    | none => Act.fail .misusedCall
  | "remove", [h] => do
    let k ← find place h 0 hs.length
    Act.write place (hs.eraseIdx k)
    nothing
  | "reverse", [] => Act.write place hs.reverse; nothing
  | "sort", [] => sort place
  | _, _ => Act.fail .misusedCall

/-- The elements of some lists, one list after the other; none if there is something else. -/
def concatenate (m : Memory) : List Held → Option (List Held)
  | [] => some []
  | .list place :: rest => (concatenate m rest).map (m.items place ++ ·)
  | _ => none

/-- The first ones of some held values that are equal. -/
def distinct (kept : List (Held × Value)) : List (Held × Value) → List (Held × Value)
  | [] => kept
  | h :: rest => distinct (if h.2.isAmong (kept.map (·.2)) then kept else kept ++ [h]) rest

/-- What is no list among some held values and in the lists among them, which are told by
`inner`. -/
def leavesBy (inner : Nat → Except Failure (List Held)) : List Held → Except Failure (List Held)
  | [] => .ok []
  | .list place :: rest => do
    let hs ← inner place
    let others ← leavesBy inner rest
    return hs ++ others
  | h :: rest => do
    let others ← leavesBy inner rest
    return h :: others

/-- What is no list in the list at a place, if lists lie in it at most so deep. -/
def leaves (m : Memory) : (depth : Nat) → (place : Nat) → Except Failure (List Held)
  | 0, _ => .error .beyond
  | depth + 1, place => leavesBy (leaves m depth) (m.items place)

/-- The answer of a builtin. -/
def apply (b : Builtin) (arguments : List Held) : Act ε Held := do
  match b, arguments with
  | .count, [.list place] => do return .plain (.whole (← Act.items place).length)
  | .append, .list place :: rest => do Act.alloc ((← Act.items place) ++ rest)
  | .concatenate, arguments => do
    match ← Act.reads (concatenate · arguments) with
    | some hs => Act.alloc hs
    | none => nothing
  | .reverse, [.list place] => do Act.alloc (← Act.items place).reverse
  | .distinctValues, [.list place] => do
    let hs ← Act.items place
    let vs ← Act.values hs
    Act.alloc ((distinct [] (hs.zip vs)).map (·.1))
  | .flatten, [.list place] => do
    Act.alloc (← Act.ofExcept (← Act.reads fun m => leaves m m.places.length place))
  | b, arguments => do
    let vs ← Act.values arguments
    Act.hold (← Act.ofExcept (b.apply vs))

/-- Calls something other than a test. -/
def call (callee : Held) (arguments : List Held) : Act (List Value) Held := do
  match callee, arguments with
  | .plain (.function (.builtin b)), arguments => do
    Act.ofExcept (b.arity.check b.name arguments.length)
    apply b arguments
  | .plain (.function (.echo name arity)), arguments => do
    Act.ofExcept (arity.check name arguments.length)
    Act.alloc arguments
  | .plain (.function .recorder), arguments => do
    Act.ofRun (Run.emit (← Act.values arguments))
    return (arguments.head?).getD (.plain .null)
  | .plain (.method (.function (.builtin b)) _), [.list place] => do
    let hs ← Act.items place
    if b.arity.admits hs.length then apply b hs else Act.fail .beyond
  | .plain (.method receiver name), arguments => do
    Act.hold (← Act.ofExcept (receiver.callMethod name (← Act.values arguments)))
  | .plain .procedure, _ => Act.fail .beyond
  | .function place name, arguments => listFunction place name arguments
  | _, _ => Act.fail .misusedCall

end Held

end Criterion

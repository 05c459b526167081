import Criterion.Artifact

/-!
# Values in memory

A list has a place in memory. All who hold the place hold the same list, and what becomes of it
becomes of all of them. A test holds the expression that it compares with, and the layers in which
that is evaluated; no two tests that are made are the same.

* `Held`, `Memory`: what is held, and the lists that stand at the places.
* `Act`: what reads and changes the memory, leaves events behind and has an outcome.
* `Memory.value`, `Memory.hold`: the value that is held, and how a value is held.
-/

namespace Criterion

inductive Held where
  /-- A value without lists. -/
  | plain (v : Value)
  | list (place : Nat)
  /-- A function that the list at a place offers under a name. -/
  | function (place : Nat) (name : String)
  | context (fields : List (String × Held))
  | relation (serial : Nat) (op : Relation) (operand : Expr) (layers : List (List (String × Held)))
  | interval (serial : Nat) (bounds : Interval Held) (layers : List (List (String × Held)))

/-- Named values in the order of their first assignment. -/
abbrev HeldFields := List (String × Held)

/-- Layers of named values, the newest first. -/
abbrev HeldLayers := List HeldFields

instance : Inhabited Held := ⟨.plain .null⟩

/-- The lists, each at its place, and how many tests have been made. -/
structure Memory where
  places : List (List Held)
  tests : Nat

/-- Reads and changes the memory on the way to an outcome, and leaves events behind. -/
def Act (ε α : Type) : Type := Memory → Memory × Run ε α

namespace Act

variable {ε α β : Type}

def ofRun (r : Run ε α) : Act ε α := fun m => (m, r)

def ofExcept (r : Except Failure α) : Act ε α := ofRun (Run.ofExcept r)

def fail (f : Failure) : Act ε α := ofRun (Run.fail f)

protected def pure (a : α) : Act ε α := ofRun (Run.pure a)

/-- One act after the other. What the first one leaves in memory stays there also if it fails. -/
protected def bind (x : Act ε α) (f : α → Act ε β) : Act ε β := fun m =>
  match x m with
  | (m, ⟨events, .ok a⟩) =>
    match f a m with
    | (m, ⟨others, outcome⟩) => (m, ⟨events ++ others, outcome⟩)
  | (m, ⟨events, .error e⟩) => (m, ⟨events, .error e⟩)

instance : Monad (Act ε) where
  pure := Act.pure
  bind := Act.bind

/-- The same act with other events in place of each. -/
def mapEvents {δ : Type} (f : ε → List δ) (x : Act ε α) : Act δ α := fun m =>
  match x m with
  | (m, r) => (m, r.mapEvents f)

/-- What is computed from the memory as it is. -/
def reads (f : Memory → α) : Act ε α := fun m => (m, Run.pure (f m))

end Act

namespace Held

/-- The value of a test, which tells it apart from other tests. -/
def mark (serial : Nat) : Value := .probe (.relation serial .equal (Run.pure .null) false)

mutual

/-- The value that is held, if `list` tells the lists at the places. -/
def valueBy (list : Nat → Except Failure Value) : Held → Except Failure Value
  | .plain v => .ok v
  | .list place => list place
  | .function place name => do return .method (← list place) name
  | .context fields => do return .context (← fieldsBy list fields)
  | .relation serial .. | .interval serial .. => .ok (mark serial)

def fieldsBy (list : Nat → Except Failure Value) : List (String × Held) → Except Failure Fields
  | [] => .ok []
  | (key, h) :: rest => do
    let v ← valueBy list h
    let others ← fieldsBy list rest
    return (key, v) :: others

end

/-- The values that are held. -/
def valuesBy (list : Nat → Except Failure Value) : List Held → Except Failure (List Value)
  | [] => .ok []
  | h :: rest => do
    let v ← h.valueBy list
    let others ← valuesBy list rest
    return v :: others

end Held

namespace Memory

/-- A memory without lists. -/
def empty : Memory := ⟨[], 0⟩

/-- The elements of the list at a place. -/
def items (m : Memory) (place : Nat) : List Held := m.places[place]?.getD []

/-- Other elements for the list at a place. -/
def write (m : Memory) (place : Nat) (items : List Held) : Memory :=
  { m with places := m.places.set place items }

/-- A new list. -/
def alloc (m : Memory) (items : List Held) : Memory × Held :=
  ({ m with places := m.places ++ [items] }, .list m.places.length)

/-- The list at a place, if lists lie in it at most so deep. -/
def list (m : Memory) : (depth : Nat) → (place : Nat) → Except Failure Value
  | 0, _ => .error .beyond
  | depth + 1, place =>
    match m.places[place]? with
    | some hs => do return .list (← Held.valuesBy (m.list depth) hs)
    | none => .error .beyond

/-- The value that is held. There is none if a list lies inside itself. -/
def value (m : Memory) (h : Held) : Except Failure Value := h.valueBy (m.list m.places.length)

def values (m : Memory) (hs : List Held) : Except Failure (List Value) :=
  Held.valuesBy (m.list m.places.length) hs

/-- The value that is held, with null for the elements of a list and the entries of a context. Its
kind and whether it is empty are those of the value. -/
def outline (m : Memory) : Held → Value
  | .plain v => v
  | .list place => .list ((m.items place).map fun _ => .null)
  | .function _ name => .method (.list []) name
  | .context fields => .context (fields.map fun (key, _) => (key, .null))
  | .relation serial .. | .interval serial .. => Held.mark serial

mutual

/-- Holds a value, with new lists for the lists in it. -/
def hold : Value → Memory → Memory × Held
  | .list items, m =>
    match holdItems items m with
    | (m, hs) => m.alloc hs
  | .context fields, m =>
    match holdFields fields m with
    | (m, hs) => (m, .context hs)
  | .method (.list items) name, m =>
    match holdItems items m with
    | (m, hs) => ((m.alloc hs).1, .function m.places.length name)
  | v, m => (m, .plain v)

def holdItems : List Value → Memory → Memory × List Held
  | [], m => (m, [])
  | v :: rest, m =>
    match hold v m with
    | (m, h) =>
      match holdItems rest m with
      | (m, hs) => (m, h :: hs)

def holdFields : List (String × Value) → Memory → Memory × HeldFields
  | [], m => (m, [])
  | (key, v) :: rest, m =>
    match hold v m with
    | (m, h) =>
      match holdFields rest m with
      | (m, hs) => (m, (key, h) :: hs)

end

end Memory

namespace Act

variable {ε : Type}

/-- The elements of the list at a place. -/
def items (place : Nat) : Act ε (List Held) := reads (·.items place)

/-- Other elements for the list at a place. -/
def write (place : Nat) (items : List Held) : Act ε Unit := fun m => (m.write place items, Run.pure ())

/-- A new list. -/
def alloc (items : List Held) : Act ε Held := fun m => ((m.alloc items).1, Run.pure (m.alloc items).2)

def value (h : Held) : Act ε Value := do ofExcept (← reads (·.value h))

def values (hs : List Held) : Act ε (List Value) := do ofExcept (← reads (·.values hs))

def outline (h : Held) : Act ε Value := reads (·.outline h)

def hold (v : Value) : Act ε Held := fun m => ((m.hold v).1, Run.pure (m.hold v).2)

/-- A new serial number. -/
def serial : Act ε Nat := fun m => ({ m with tests := m.tests + 1 }, Run.pure m.tests)

/-- Goes through a list as it stands while the list may change: on to the next place until the list
has no element there, or until an element decides. A list that keeps growing is not gone through to
its end. -/
def along {σ : Type} (place : Nat) (visit : σ → Held → Act ε (σ × Bool)) :
    (fuel : Nat) → (next : Nat) → σ → Act ε σ
  | 0, _, _ => fail .beyond
  | fuel + 1, next, s => do
    match (← items place)[next]? with
    | none => return s
    | some h =>
      let (s, decided) ← visit s h
      if decided then return s else along place visit fuel (next + 1) s

/-- The bound on the rounds through a list, and on the tests that ask each other in turn. -/
def limit : Nat := 1000

/-- Goes through the list at a place from its start. -/
def through {σ : Type} (place : Nat) (visit : σ → Held → Act ε (σ × Bool)) (s : σ) : Act ε σ := do
  along place visit ((← items place).length + limit) 0 s

end Act

end Criterion

import Criterion.Value.Field

/-!
# Scopes

A scope is a stack of layers of named values. A new layer hides the names below it and changes
nothing in them.

* `Scope.get?`: the value of a name in the newest layer that has it.
* `Scope.resolve`: the value of a name that may have dots. The whole name wins; otherwise the
  part before the first dot is looked up and the others are read as fields, one after the other.
-/

namespace Criterion

/-- Layers of named values, the newest first. -/
structure Scope where
  layers : List Fields

namespace Scope

/-- The key under which a scope asks tests to answer with the matched value. -/
def reportKey : String := "__extractLeft"

/-- The key of the value that a test is matched against. -/
def inputKey : String := "?"

/-- A scope with one layer. -/
def ofFields (fields : Fields) : Scope := ⟨[fields]⟩

/-- The scope with a layer over it. -/
def extend (s : Scope) (layer : Fields) : Scope := ⟨layer :: s.layers⟩

def get? (s : Scope) (name : String) : Option Value := s.layers.findSome? (·.get? name)

/-- The value of a name, null if there is none. -/
def get (s : Scope) (name : String) : Value := .ofOption (s.get? name)

/-- The value of a name; a failure if there is none. -/
def item (s : Scope) (name : String) : Except Failure Value :=
  match s.get? name with
  | some v => .ok v
  | none => .error (.absentKey name)

/-- The value of a name, another value if there is none. -/
def getOr (s : Scope) (name : String) (default : Value) : Value := (s.get? name).getD default

def has (s : Scope) (name : String) : Bool := (s.get? name).isSome

/-- The fields of all layers: those of a newer layer first, and each name once. -/
def visible (s : Scope) : Fields := go [] s.layers
where
  /-- The fields of some layers without the names that are hidden. -/
  go (hidden : List String) : List Fields → Fields
    | [] => []
    | layer :: below =>
      layer.filter (!hidden.contains ·.1) ++ go (layer.map (·.1) ++ hidden) below

def keys (s : Scope) : List String := s.visible.map (·.1)

def length (s : Scope) : Nat := s.keys.length

/-- The part of a name before its first dot, and the parts after it. -/
def segments (name : String) : String × List String :=
  match split name.toList with
  | [] => (name, [])
  | head :: rest => (String.ofList head, rest.map String.ofList)
where
  /-- The parts between the dots. -/
  split : List Char → List (List Char)
    | [] => [[]]
    | c :: rest =>
      if c = '.' then [] :: split rest
      else match split rest with
        | [] => [[c]]
        | part :: parts => (c :: part) :: parts

/-- The value of a name that may have dots, null if there is none. -/
def resolve (s : Scope) (name : String) : Value :=
  match s.get? name with
  | some v => v
  | none =>
    match segments name with
    | (_, []) => .null
    | (head, rest) =>
      if rest = [""] then .null
      else match s.get? head with
        | some v => rest.foldl Value.fieldOrFields v
        | none => .null

/-- Whether tests in this scope answer with the matched value. -/
def reports (s : Scope) : Bool := (s.get reportKey).isNonzero

/-- Whether two scopes give every name the same value. -/
def eqv (s t : Scope) : Bool := (Value.context s.visible).eqv (.context t.visible)

end Scope

end Criterion

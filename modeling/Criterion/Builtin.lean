/-!
# Builtin functions

The functions that every registry starts from, with their names and the numbers of arguments
that they take.
-/

namespace Criterion

inductive Builtin where
  | abs
  | floor
  | ceiling
  | decimal
  | negation
  | stringLength
  | upperCase
  | lowerCase
  | substring
  | contains
  | startsWith
  | endsWith
  | string
  | number
  | count
  | sum
  | min
  | max
  | mean
  | listContains
  | append
  | concatenate
  | reverse
  | distinctValues
  | indexOf
  | flatten
  | date
  | time
  | dateAndTime
deriving DecidableEq

/-- How many arguments a function takes: exactly so many, or else so many at least. -/
structure Arity where
  exact : Option Nat
  least : Nat
deriving DecidableEq

namespace Arity

def exactly (n : Nat) : Arity := ⟨some n, 0⟩

def atLeast (n : Nat) : Arity := ⟨none, n⟩

/-- Whether a number of arguments is taken. -/
def admits (a : Arity) (given : Nat) : Bool :=
  match a.exact with
  | some n => given == n
  | none => a.least ≤ given

end Arity

namespace Builtin

/-- All builtins, in the order of the registry. -/
def all : List Builtin :=
  [.abs, .floor, .ceiling, .decimal, .negation, .stringLength, .upperCase, .lowerCase,
    .substring, .contains, .startsWith, .endsWith, .string, .number, .count, .sum, .min, .max,
    .mean, .listContains, .append, .concatenate, .reverse, .distinctValues, .indexOf, .flatten,
    .date, .time, .dateAndTime]

def name : Builtin → String
  | .abs => "abs"
  | .floor => "floor"
  | .ceiling => "ceiling"
  | .decimal => "decimal"
  | .negation => "not"
  | .stringLength => "string length"
  | .upperCase => "upper case"
  | .lowerCase => "lower case"
  | .substring => "substring"
  | .contains => "contains"
  | .startsWith => "starts with"
  | .endsWith => "ends with"
  | .string => "string"
  | .number => "number"
  | .count => "count"
  | .sum => "sum"
  | .min => "min"
  | .max => "max"
  | .mean => "mean"
  | .listContains => "list contains"
  | .append => "append"
  | .concatenate => "concatenate"
  | .reverse => "reverse"
  | .distinctValues => "distinct values"
  | .indexOf => "index of"
  | .flatten => "flatten"
  | .date => "date"
  | .time => "time"
  | .dateAndTime => "date and time"

def arity : Builtin → Arity
  | .decimal | .contains | .startsWith | .endsWith | .listContains | .indexOf => .exactly 2
  | .substring => .atLeast 2
  | .sum | .min | .max | .mean | .append | .date => .atLeast 1
  | .concatenate => .atLeast 0
  | _ => .exactly 1

/-- The builtin of a name. -/
def ofName? (s : String) : Option Builtin := all.find? (·.name == s)

end Builtin

end Criterion

import Criterion.Number
import Criterion.Operator

/-!
# Expressions

The abstract form of an expression, and its tag: what kind of value it is expected to have, as
far as its form tells. A filter decides by the tag of its condition whether it selects by
position, by a fixed answer, by equality or by a predicate.

* `Tag.join`: the tag of an expression whose value is one of two, or is computed from two.
* `Expr.tag`: the tag of an expression.
-/

namespace Criterion

inductive Tag where
  | number
  | string
  | boolean
  | test
  | any
deriving DecidableEq

def Tag.name : Tag → String
  | .number => "number"
  | .string => "string"
  | .boolean => "boolean"
  | .test => "test"
  | .any => "any"

/-- The tag that two tags have in common. -/
def Tag.join (a b : Option Tag) : Tag :=
  match a with
  | some t => if b = some t then t else .any
  | none => .any

inductive Quantifier where
  | every
  | some
deriving DecidableEq

inductive Expr where
  | null
  | boolean (b : Bool)
  | number (n : Number)
  | text (s : String)
  /-- The test that every value passes. -/
  | wildcard
  /-- A name, which may have dots. -/
  | name (n : String)
  /-- A name of the registry alone. -/
  | registered (n : String)
  /-- The value that tests are matched against. -/
  | input
  | list (items : List Expr)
  | context (entries : List (String × Expr))
  /-- An operator before its only operand; the other one is zero. -/
  | unary (op : Arithmetic) (a : Expr)
  | arithmetic (op : Arithmetic) (a b : Expr)
  | relation (op : Relation) (a b : Expr)
  | between (a low high : Expr)
  | member (a tests : Expr)
  | disjunction (a b : Expr)
  | conjunction (a b : Expr)
  | instanceOf (a : Expr) (type : String)
  | choose (condition yes : Expr) (no : Option Expr)
  | loop (bindings : List (String × Expr)) (body : Expr)
  | quantified (q : Quantifier) (bindings : List (String × Expr)) (condition : Expr)
  | range (a b : Expr)
  /-- A call; `source` is its text. -/
  | call (source : String) (callee : Expr) (arguments : List Expr)
  | path (target : Expr) (field : String)
  | filter (target condition : Expr)
  /-- A test by comparison; `site` is its place in the source. -/
  | test (site : Nat) (op : Relation) (operand : Expr)
  /-- A test by an interval. -/
  | interval (site : Nat) (includesStart : Bool) (start stop : Expr) (includesStop : Bool)
  /-- An operation of the language where a value is expected. -/
  | procedure

namespace Expr

/-- The tag of an expression, if its form tells one. -/
def tag : Expr → Option Tag
  | .boolean _ => some .boolean
  | .number _ => some .number
  | .text _ => some .string
  | .unary _ a => a.tag
  | .arithmetic _ a b => some (Tag.join a.tag b.tag)
  | .disjunction .. | .conjunction .. | .instanceOf .. | .quantified .. => some .test
  | .choose _ yes (some no) => some (Tag.join yes.tag no.tag)
  | .choose _ _ none => some .any
  | .test .. | .interval .. => some .test
  | _ => none

end Expr

end Criterion

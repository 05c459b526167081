/-!
# Operators

The arithmetic operators and the comparisons of the language, and how they are written.
-/

namespace Criterion

inductive Arithmetic where
  | plus
  | minus
  | times
  | over
  | power
deriving DecidableEq

/-- The operator that a text stands for; a power has two spellings. -/
def Arithmetic.ofText? : String → Option Arithmetic
  | "+" => some .plus
  | "-" => some .minus
  | "*" => some .times
  | "/" => some .over
  | "**" => some .power
  | "^" => some .power
  | _ => none

inductive Relation where
  | equal
  | differs
  | less
  | atMost
  | greater
  | atLeast
deriving DecidableEq

/-- The comparison that a text stands for. -/
def Relation.ofText? : String → Option Relation
  | "=" => some .equal
  | "!=" => some .differs
  | "<" => some .less
  | "<=" => some .atMost
  | ">" => some .greater
  | ">=" => some .atLeast
  | _ => none

end Criterion

/-!
# Sets of characters

A property of characters that holds in long runs is given by the code points at which it
changes: it is false before the first, true from there to the second, and so on.
-/

namespace Criterion.Text

/-- Whether a character is in the set whose membership changes at the given code points. -/
def CharSet.mem (changes : List Nat) (c : Char) : Bool :=
  (changes.takeWhile (· ≤ c.toNat)).length % 2 == 1

end Criterion.Text

import Criterion.Syntax.Tree

/-!
# Readings

A reader goes through the tokens of a source and yields all its readings: at most one for each
place where a reading can end, the longest first. Where two ways lead to one place the first
one is taken, so the order of alternatives and the length of the earlier parts decide.

A reader also tells how far any of its ways got. The token there is the first that no way can
read, so it is where a source stops to make sense.

* `Readings.union`: the readings of two readers; the first one goes before.
* `Reader.bind`: one reader after the other; longer first parts go before.
* `Reader.chain`: any number of steps.
-/

namespace Criterion

/-- A place between the tokens: the end of the last token that was read and the tokens left. -/
structure Cursor where
  stop : Nat
  rest : List Lexeme

/-- Readings with the places where they end, longest first, and the furthest place reached. -/
structure Readings (α : Type) where
  found : List (α × Cursor)
  reached : Nat

/-- A way to read from a place on. -/
abbrev Reader (α : Type) := Cursor → Readings α

variable {α β : Type}

namespace Readings

/-- Adds a reading unless there is one that ends at the same place. -/
def insert (x : α × Cursor) : List (α × Cursor) → List (α × Cursor)
  | [] => [x]
  | y :: ys =>
    if y.2.stop < x.2.stop then x :: y :: ys
    else if x.2.stop = y.2.stop then y :: ys
    else y :: insert x ys

/-- The readings of both; those of the first go before. -/
def union (x y : Readings α) : Readings α :=
  ⟨y.found.foldl (fun found r => insert r found) x.found, max x.reached y.reached⟩

/-- Goes on from each reading. -/
def bind (x : Readings α) (f : α → Reader β) : Readings β :=
  x.found.foldl (fun all (a, c) => all.union (f a c)) ⟨[], x.reached⟩

end Readings

namespace Reader

/-- Reads nothing. -/
protected def pure (a : α) : Reader α := fun c => ⟨[(a, c)], c.stop⟩

/-- Has no reading. -/
def none : Reader α := fun c => ⟨[], c.stop⟩

protected def bind (r : Reader α) (f : α → Reader β) : Reader β := fun c => (r c).bind f

instance : Monad Reader where
  pure := Reader.pure
  bind := Reader.bind

/-- The readings of both; those of the first go before. -/
def either (r s : Reader α) : Reader α := fun c => (r c).union (s c)

/-- Goes on from each reading in two ways; all readings of the first way go before. -/
def fork (r : Reader α) (f g : α → Reader β) : Reader β := fun c =>
  let x := r c
  (x.bind f).union (x.bind g)

/-- The first of several readers goes before the others. -/
def oneOf (rs : List (Reader α)) : Reader α := rs.foldr either none

/-- A token of one of the given kinds. -/
def token (kinds : List Terminal) : Reader Tree := fun c =>
  match c.rest with
  | l :: rest =>
    if kinds.contains l.kind then ⟨[(.token l.token, ⟨l.stop, rest⟩)], l.stop⟩ else ⟨[], c.stop⟩
  | [] => ⟨[], c.stop⟩

/-- A token that leaves nothing in the tree. -/
def skip (kind : Terminal) : Reader Unit := do
  let _ ← token [kind]
  return ()

/-- Any number of steps, at most `fuel`; each goes on from what the ones before have read. -/
def steps (step : α → Reader α) : (fuel : Nat) → α → Reader α
  | 0, a => pure a
  | n + 1, a => either (do let b ← step a; steps step n b) (pure a)

/-- Any number of steps, each of which reads a token at least. -/
def chain (step : α → Reader α) (a : α) : Reader α := fun c => steps step c.rest.length a c

/-- One or more, separated by commas. -/
def separated (item : Reader α) : Reader (List α) := do
  let first ← item
  chain (fun items => do
    skip .comma
    let next ← item
    return items ++ [next]) [first]

/-- The end of the last token that was read. -/
def position : Reader Nat := fun c => ⟨[(c.stop, c)], c.stop⟩

/-- A rule with the trees of its parts. Its span covers all tokens that were read. -/
def node (parts : Reader (Rule × List Tree)) : Reader Tree := fun c =>
  (do
    let (rule, children) ← parts
    let stop ← position
    return Tree.node rule (c.rest.head?.map fun l => ⟨l.start, stop⟩) children : Reader Tree) c

/-- A rule that begins with a tree that was read before. -/
def extend (rule : Rule) (left : Tree) (parts : Reader (List Tree)) : Reader Tree := do
  let children ← parts
  let stop ← position
  return Tree.node rule (left.span.map fun s => ⟨s.start, stop⟩) (left :: children)

end Reader

end Criterion

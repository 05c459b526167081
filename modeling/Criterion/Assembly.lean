import Criterion.Artifact

/-!
# Building trees

A tree is built from its leaves up: each part is entered before its own parts and left after
them, when its artifact is made. The walk keeps a stack of tasks and a stack of frames that
collect the artifacts of the parts entered so far, so its depth does not depend on the tree.

* `Tree.build`: the artifact of a tree, with the trace of the walk.
-/

namespace Criterion

/-- A line of the trace of a walk. -/
inductive TraceLine where
  | enter (part : Tree)
  | leave (part : Tree) (made : Artifact)

namespace TraceLine

/-- How a trace shows a part: a token with its text, a rule by its name. -/
def describe : Tree → String
  | .token t => t.kind.shown ++ " " ++ Text.quoted t.text
  | .node rule _ _ => rule.shown

def shown : TraceLine → String
  | enter part => "enter " ++ describe part
  | leave part made => "leave " ++ describe part ++ " -> " ++ made.shown

/-- The least level of detail at which the line is shown. -/
def level : TraceLine → Nat
  | enter _ => 3
  | leave .. => 2

end TraceLine

/-- Building leaves the lines of its trace. -/
abbrev Build (α : Type) := Run TraceLine α

/-- Where a tree starts, or zero if that is unknown. -/
def Tree.site (t : Tree) : Nat := (t.span.map (·.start)).getD 0

/-- The artifact of a tree whose parts have been built. -/
def Tree.assemble (source : String) (t : Tree) (parts : List Artifact) :
    Except Failure Artifact :=
  match t with
  | .token tok => tok.assemble
  | .node rule _ _ => rule.assemble t.site (t.text source) parts

/-- The failure of a tree that stands for several readings. -/
def Tree.ambiguity (source : String) (t : Tree) : Failure :=
  match t.span with
  | some s => .unparseable s.start s.stop none
  | none => .unparseable 0 source.length none

/-- The number of parts of a tree, itself included. -/
def Tree.size : Tree → Nat
  | .token _ => 1
  | .node _ _ children => 1 + sizes children
where
  sizes : List Tree → Nat
    | [] => 0
    | t :: rest => t.size + sizes rest

namespace Walk

inductive Task where
  | enter (t : Tree)
  | leave (t : Tree)

/-- The artifacts of the parts built so far, the last one first. -/
abbrev Frame := List Artifact

/-- The tasks left, the next one first, and the frames, the innermost one first. -/
structure State where
  tasks : List Task
  frames : List Frame

/-- Works off a task: the state after it, given the tasks behind it and the frames before it. -/
def step (source : String) (tasks : List Task) (frames : List Frame) : Task → Build State
  | .enter t =>
    if t.isTrivia then return ⟨tasks, frames⟩
    else match t with
      | .node .ambiguous _ _ => Run.fail (t.ambiguity source)
      | .node _ _ children => do
        Run.emit (.enter t)
        return ⟨children.map .enter ++ .leave t :: tasks, [] :: frames⟩
      | .token _ => do
        Run.emit (.enter t)
        return ⟨.leave t :: tasks, [] :: frames⟩
  | .leave t => do
    let artifact ← Run.ofExcept (t.assemble source (frames.headD []).reverse)
    Run.emit (.leave t artifact)
    return ⟨tasks, (artifact :: (frames.drop 1).headD []) :: frames.drop 2⟩

/-- Works off the tasks, at most `fuel` of them. -/
def run (source : String) : (fuel : Nat) → State → Build State
  | 0, s => return s
  | _, ⟨[], frames⟩ => return ⟨[], frames⟩
  | fuel + 1, ⟨task :: tasks, frames⟩ => do
    let s ← step source tasks frames task
    run source fuel s

/-- Before the walk: the whole tree is to be entered, and its artifact is collected in a frame of
its own. -/
def start (t : Tree) : State := ⟨[.enter t], [[]]⟩

end Walk

/-- The artifact of a tree; a blank or a comment has none. Each part takes two tasks. -/
def Tree.build (source : String) (t : Tree) : Build (Option Artifact) := do
  let s ← Walk.run source (2 * t.size) (Walk.start t)
  return (s.frames.headD []).head?

end Criterion

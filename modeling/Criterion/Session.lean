import Criterion.Assembly
import Criterion.Syntax.Grammar

/-!
# Sessions

A session evaluates sources one after the other with one registry. It keeps variables, which are
visible to all its sources, and at a level of detail from one to three it traces what it does:
the sources and their answers, the parts of their trees as they are finished, and as they are
begun.

* `evaluate`, `unaryTest`: the answer of one source.
* `Session.step`: one step of a session.
-/

namespace Criterion

/-- The registry of all builtins. -/
def standardRegistry : Fields := Builtin.all.map fun b => (b.name, .function (.builtin b))

/-- What is left behind on the way to an answer: recorded calls and lines of the trace. -/
inductive Event where
  | call (arguments : List Value)
  | line (text : String)

/-- The registry, and the level of detail of the trace. -/
structure Settings where
  registry : Fields
  detail : Nat

def Settings.standard : Settings := ⟨standardRegistry, 0⟩

abbrev Action (α : Type) := Run Event α

namespace Settings

/-- Leaves a line at the first level of detail. -/
def note (s : Settings) (text : String) : Action Unit :=
  if 1 ≤ s.detail then Run.emit (.line text) else pure ()

/-- Leaves a line that shows the answer of a source. -/
def noteAnswer (s : Settings) (text : String) (v : Value) : Action Unit :=
  if 1 ≤ s.detail then do
    let line ← Run.ofExcept v.shown
    Run.emit (.line (text ++ " -> " ++ line))
  else pure ()

/-- Builds a tree and leaves the lines of the walk that the level of detail shows. -/
def build (s : Settings) (source : String) (t : Tree) : Action (Option Artifact) :=
  (t.build source).mapEvents fun l => if l.level ≤ s.detail then [.line l.shown] else []

end Settings

/-- Evaluation as an action. -/
def Eval.action {α : Type} (r : Eval α) : Action α := r.mapEvents fun call => [.call call]

/-- The one element of a list with one element, and other values as they are. -/
def Value.single : Value → Value
  | .list [v] => v
  | v => v

/-- The value of the expressions of a source: of one its value, of several their list. -/
def evaluate (s : Settings) (source : String) (bindings : Fields) : Action Value := do
  let line := "evaluate " ++ Text.quoted source
  s.note line
  let tree ← Run.ofExcept (parse false source)
  match ← s.build source tree with
  | some artifact =>
    let v ← (artifact.eval s.registry (.ofFields bindings)).action
    s.noteAnswer line v.single
    return v.single
  | none => Run.fail (.misshapenNode "expressions")

/-- The answer of the unary tests of a source for the value under `?`. With `reports` a match is
answered by the value. -/
def unaryTest (s : Settings) (source : String) (bindings : Fields) (reports : Bool) :
    Action Value := do
  let line := "unary_test " ++ Text.quoted source
  s.note line
  let scope := Scope.ofFields bindings
  let scope := if reports then scope.extend [(Scope.reportKey, .boolean true)] else scope
  let tree ← Run.ofExcept (parse true source)
  match ← s.build source tree with
  | some (.tests ts) =>
    let v ← (ts.eval s.registry scope (scope.get Scope.inputKey)).action
    s.noteAnswer line v
    return v
  | _ => Run.fail (.misshapenNode "unary_tests")

/-- A session: its settings, its variables, and whether its trace is still kept. -/
structure Session where
  settings : Settings
  bindings : Fields
  isOpen : Bool

inductive Step where
  | set (name : String) (v : Value)
  /-- The answer, if there is one, becomes the variable named by `save`. -/
  | evaluate (source : String) (context : Fields) (save : Option String)
  | unary (source : String) (context : Fields) (reports : Bool) (save : Option String)
  | parse (source : String) (unary : Bool)
  | close

/-- What a step answers. -/
inductive Reply where
  | nothing
  | value (v : Value)
  | tree (t : Tree)

namespace Session

def start (settings : Settings) : Session := ⟨settings, [], true⟩

/-- The session after an answer that is saved under a name. -/
def saved (s : Session) (name : Option String) (v : Value) : Session :=
  match name with
  | some n => { s with bindings := s.bindings.put n v }
  | none => s

/-- The session after an action, and what the action answers. -/
def answered (s : Session) (name : Option String) (action : Action Value) :
    Session × Action Reply :=
  (match action.outcome with
    | .ok v => s.saved name v
    | .error _ => s,
  do return .value (← action))

/-- One step. A context is laid over the variables. -/
def step (s : Session) : Step → Session × Action Reply
  | .set name v => (s.saved (some name) v, return .nothing)
  | .evaluate source context save =>
    s.answered save (Criterion.evaluate s.settings source (s.bindings.update context))
  | .unary source context reports save =>
    s.answered save (unaryTest s.settings source (s.bindings.update context) reports)
  | .parse source unary => (s, do return .tree (← Run.ofExcept (Criterion.parse unary source)))
  | .close => ({ s with isOpen := false }, return .nothing)

end Session

end Criterion

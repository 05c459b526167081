import Criterion.Memory.Eval
import Criterion.Session

/-!
# Sittings

What values tell is answered by values. Where they do not (`Failure.beyond`), as in a call of a
list's function that changes the list, evaluation is done in memory from its beginning. In a sitting
the variables keep their lists from one step to the next, and so what one step does to a list is
seen by the next.

* `evaluateHeld`, `unaryTestHeld`: the answer of one source in memory.
* `HeldSession.step`: one step of a session in memory.
* `respond`, `respondUnary`: **the answer of one source.**
* `Sitting.step`: **one step of a session**, by values as long as they tell all.
-/

namespace Criterion

/-! ## In memory -/

/-- The one element of a list with one element, and other values as they are. -/
def Held.single {ε : Type} (h : Held) : Act ε Held :=
  match h with
  | .list place => do
    match ← Act.items place with
    | [item] => return item
    | _ => return h
  | h => return h

/-- An answer in memory, and the line that shows it. -/
def Settings.noteHeld (s : Settings) (text : String) (h : Held) : Act Event Held := do
  if 1 ≤ s.detail then
    Act.ofRun (s.noteAnswer text (← Act.value h))
  return h

/-- The value of the expressions of a source. -/
def evaluateHeld (s : Settings) (registry : HeldFields) (source : String)
    (bindings : HeldFields) : Act Event Held := do
  let line := "evaluate " ++ Text.quoted source
  Act.ofRun (s.note line)
  let tree ← Act.ofExcept (parse false source)
  match ← Act.ofRun (s.build source tree) with
  | some artifact =>
    let h ← (artifact.act registry [bindings]).mapEvents fun call => [.call call]
    s.noteHeld line (← h.single)
  | none => Act.fail (.misshapenNode "expressions")

/-- The answer of the unary tests of a source for the value under `?`. -/
def unaryTestHeld (s : Settings) (registry : HeldFields) (source : String)
    (bindings : HeldFields) (reports : Bool) : Act Event Held := do
  let line := "unary_test " ++ Text.quoted source
  Act.ofRun (s.note line)
  let layers : HeldLayers :=
    if reports then [[(Scope.reportKey, .plain (.boolean true))], bindings] else [bindings]
  let tree ← Act.ofExcept (parse true source)
  match ← Act.ofRun (s.build source tree) with
  | some (.tests ts) =>
    let ask := Expr.actWithin registry Act.limit
    let h ← (ts.act ask registry layers (layers.get Scope.inputKey)).mapEvents
      fun call => [.call call]
    s.noteHeld line h
  | _ => Act.fail (.misshapenNode "unary_tests")

/-- A session in memory. -/
structure HeldSession where
  settings : Settings
  registry : HeldFields
  bindings : HeldFields
  isOpen : Bool
  memory : Memory

namespace HeldSession

/-- A session whose registry is held in a new memory. -/
def start (settings : Settings) : HeldSession :=
  match Memory.holdFields settings.registry .empty with
  | (memory, registry) => ⟨settings, registry, [], true, memory⟩

/-- The variables after an answer that is saved under a name. -/
def saved (s : HeldSession) (name : Option String) (answer : Except Failure Held) : HeldFields :=
  match name, answer with
  | some n, .ok h => s.bindings.put n h
  | _, _ => s.bindings

/-- The session after an act, and the value of what the act answers. -/
def answered (s : HeldSession) (name : Option String) (act : Act Event Held) :
    HeldSession × Action Reply :=
  let made := act s.memory
  ({ s with bindings := s.saved name made.2.outcome, memory := made.1 },
    ⟨made.2.events, do return .value (← made.1.value (← made.2.outcome))⟩)

/-- Holds a context and lays it over the variables. -/
def overlaid (s : HeldSession) (context : Fields) : HeldSession × HeldFields :=
  match Memory.holdFields context s.memory with
  | (memory, fields) => ({ s with memory }, HeldFields.update s.bindings fields)

/-- One step. -/
def step (s : HeldSession) : Step → HeldSession × Action Reply
  | .set name v =>
    match Memory.hold v s.memory with
    | (memory, h) => ({ s with bindings := s.bindings.put name h, memory }, return .nothing)
  | .evaluate source context save =>
    match s.overlaid context with
    | (s, bindings) => s.answered save (evaluateHeld s.settings s.registry source bindings)
  | .unary source context reports save =>
    match s.overlaid context with
    | (s, bindings) => s.answered save (unaryTestHeld s.settings s.registry source bindings reports)
  | .parse source unary => (s, do return .tree (← Run.ofExcept (Criterion.parse unary source)))
  | .close => ({ s with isOpen := false }, return .nothing)

/-- The session after some steps. -/
def after (s : HeldSession) (steps : List Step) : HeldSession :=
  steps.foldl (fun s step => (s.step step).1) s

end HeldSession

/-! ## By values, else in memory -/

/-- Whether a run ends where values do not tell how it goes on. -/
def Run.isBeyond {ε α : Type} (r : Run ε α) : Bool :=
  match r.outcome with
  | .error f => f = .beyond
  | .ok _ => false

/-- The reply to a step, its value alone. -/
def Reply.value? : Reply → Value
  | .value v => v
  | _ => .null

/-- The answer of the first step of a session. -/
def HeldSession.first (settings : Settings) (step : Step) : Action Value := do
  return (← ((start settings).step step).2).value?

/-- The value of the expressions of a source. -/
def respond (s : Settings) (source : String) (bindings : Fields) : Action Value :=
  let told := evaluate s source bindings
  if told.isBeyond then HeldSession.first s (.evaluate source bindings none) else told

/-- The answer of the unary tests of a source for the value under `?`. -/
def respondUnary (s : Settings) (source : String) (bindings : Fields) (reports : Bool) :
    Action Value :=
  let told := unaryTest s source bindings reports
  if told.isBeyond then HeldSession.first s (.unary source bindings reports none) else told

/-- What values tell is answered. -/
theorem respond_of_told {s : Settings} {source : String} {bindings : Fields}
    (h : (evaluate s source bindings).isBeyond = false) :
    respond s source bindings = evaluate s source bindings := by
  rw [respond, h]
  rfl

theorem respondUnary_of_told {s : Settings} {source : String} {bindings : Fields} {reports : Bool}
    (h : (unaryTest s source bindings reports).isBeyond = false) :
    respondUnary s source bindings reports = unaryTest s source bindings reports := by
  rw [respondUnary, h]
  rfl

/-- A session with the steps before, of which values told all, or a session in memory. -/
inductive Sitting where
  | told (session : Session) (past : List Step)
  | held (session : HeldSession)

namespace Sitting

def start (settings : Settings) : Sitting := .told (.start settings) []

def settings : Sitting → Settings
  | .told session _ => session.settings
  | .held session => session.settings

/-- Whether the trace is still kept. -/
def isOpen : Sitting → Bool
  | .told session _ => session.isOpen
  | .held session => session.isOpen

/-- The session in memory after the steps before. -/
def inMemory : Sitting → HeldSession
  | .told session past => (HeldSession.start session.settings).after past
  | .held session => session

/-- One step in memory. -/
def stepInMemory (s : Sitting) (step : Step) : Sitting × Action Reply :=
  match s.inMemory.step step with
  | (session, action) => (.held session, action)

/-- One step. Once values do not tell a step, it and all after it are done in memory. -/
def step (s : Sitting) (step : Step) : Sitting × Action Reply :=
  match s with
  | .told session past =>
    match session.step step with
    | (next, action) =>
      if action.isBeyond then s.stepInMemory step else (.told next (past ++ [step]), action)
  | .held _ => s.stepInMemory step

/-- The sitting after some steps. -/
def after (s : Sitting) (steps : List Step) : Sitting := steps.foldl (fun s step => (s.step step).1) s

/-- The replies to some steps. -/
def replies (s : Sitting) : List Step → List (Action Reply)
  | [] => []
  | step :: rest => (s.step step).2 :: replies (s.step step).1 rest

end Sitting

end Criterion

import Criterion.Failure

/-!
# Runs

A run is the list of events that a computation leaves behind, in order, and its outcome. When
it fails, the events up to the failure remain. Evaluation leaves the calls of the functions that
record them, and building leaves the lines of its trace.
-/

namespace Criterion

/-- Events in order, and the outcome. -/
structure Run (ε α : Type) where
  events : List ε
  outcome : Except Failure α

namespace Run

variable {ε α β : Type}

def fail (f : Failure) : Run ε α := ⟨[], .error f⟩

def ofExcept (r : Except Failure α) : Run ε α := ⟨[], r⟩

/-- A run that leaves one event. -/
def emit (e : ε) : Run ε Unit := ⟨[e], .ok ()⟩

protected def pure (a : α) : Run ε α := ⟨[], .ok a⟩

protected def bind (r : Run ε α) (f : α → Run ε β) : Run ε β :=
  match r.outcome with
  | .ok a =>
    let next := f a
    ⟨r.events ++ next.events, next.outcome⟩
  | .error e => ⟨r.events, .error e⟩

/-- The same run with other events in place of each. -/
def mapEvents {δ : Type} (f : ε → List δ) (r : Run ε α) : Run δ α :=
  ⟨r.events.flatMap f, r.outcome⟩

instance : Monad (Run ε) where
  pure := Run.pure
  bind := Run.bind

end Run

end Criterion

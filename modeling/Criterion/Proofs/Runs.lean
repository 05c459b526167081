import Criterion.Run

/-!
# Runs one after the other

A run that succeeds hands its value to the next one and their events follow each other; a run
that fails ends all. So runs form a lawful monad, and the events of two runs are those of the
first, followed by those of the second if it is reached.
-/

namespace Criterion.Run

variable {ε α β γ : Type}

@[simp] theorem pure_events (a : α) : (pure a : Run ε α).events = [] := rfl

@[simp] theorem pure_outcome (a : α) : (pure a : Run ε α).outcome = .ok a := rfl

@[simp] theorem fail_events (f : Failure) : (Run.fail f : Run ε α).events = [] := rfl

@[simp] theorem fail_outcome (f : Failure) : (Run.fail f : Run ε α).outcome = .error f := rfl

@[simp] theorem emit_events (e : ε) : (Run.emit e).events = [e] := rfl

@[simp] theorem emit_outcome (e : ε) : (Run.emit e).outcome = .ok () := rfl

@[simp] theorem ofExcept_events (x : Except Failure α) : (Run.ofExcept x : Run ε α).events = [] := rfl

@[simp] theorem ofExcept_outcome (x : Except Failure α) :
    (Run.ofExcept x : Run ε α).outcome = x := rfl

theorem bind_of_ok {r : Run ε α} {a : α} (h : r.outcome = .ok a) (f : α → Run ε β) :
    r >>= f = ⟨r.events ++ (f a).events, (f a).outcome⟩ := by
  change Run.bind r f = _
  simp [Run.bind, h]

theorem bind_of_error {r : Run ε α} {e : Failure} (h : r.outcome = .error e) (f : α → Run ε β) :
    r >>= f = ⟨r.events, .error e⟩ := by
  change Run.bind r f = _
  simp [Run.bind, h]

private theorem bind_pure_self (r : Run ε α) : r >>= (fun a => (pure a : Run ε α)) = r := by
  obtain ⟨events, outcome⟩ := r
  cases outcome with
  | ok a => exact (bind_of_ok rfl _).trans (by simp)
  | error e => exact bind_of_error rfl _

private theorem bind_then (r : Run ε α) (f : α → Run ε β) (g : β → Run ε γ) :
    r >>= f >>= g = r >>= fun a => f a >>= g := by
  cases hr : r.outcome with
  | error e => rw [bind_of_error hr, bind_of_error hr, bind_of_error rfl]
  | ok a =>
    rw [bind_of_ok hr, bind_of_ok hr]
    cases hf : (f a).outcome with
    | error e => rw [bind_of_error hf, bind_of_error rfl]
    | ok b => rw [bind_of_ok hf, bind_of_ok rfl, List.append_assoc]

instance : LawfulMonad (Run ε) :=
  LawfulMonad.mk' _ bind_pure_self (fun a f => (bind_of_ok rfl f).trans (by simp)) bind_then

@[simp] theorem fail_bind (e : Failure) (f : α → Run ε β) : Run.fail e >>= f = Run.fail e :=
  bind_of_error rfl f

/-- The outcome of two runs is that of the second one after that of the first. -/
theorem bind_outcome (r : Run ε α) (f : α → Run ε β) :
    (r >>= f).outcome = r.outcome >>= fun a => (f a).outcome := by
  cases hr : r.outcome with
  | error e => rw [bind_of_error hr]; rfl
  | ok a => rw [bind_of_ok hr]; rfl

/-- Two runs with the same first part are the same if they are so for its value. -/
theorem bind_congr {r : Run ε α} {f g : α → Run ε β} (h : ∀ a, r.outcome = .ok a → f a = g a) :
    r >>= f = r >>= g := by
  cases hr : r.outcome with
  | error e => rw [bind_of_error hr, bind_of_error hr]
  | ok a => rw [bind_of_ok hr, bind_of_ok hr, h a hr]

/-- What a run of two parts answers is what its second part answers. -/
theorem bind_outcome_ok {r : Run ε α} {f : α → Run ε β} {b : β}
    (h : (r >>= f).outcome = .ok b) : ∃ a, r.outcome = .ok a ∧ (f a).outcome = .ok b := by
  cases hr : r.outcome with
  | error e => rw [bind_of_error hr] at h; cases h
  | ok a => rw [bind_of_ok hr] at h; exact ⟨a, rfl, h⟩

/-- An outcome that passes a test is a value. -/
theorem ok_of_any {x : Except Failure α} {p : α → Bool} (h : x.toOption.any p = true) :
    ∃ a, x = .ok a ∧ p a = true := by
  cases x with
  | error e => cases h
  | ok a => exact ⟨a, rfl, h⟩

end Criterion.Run

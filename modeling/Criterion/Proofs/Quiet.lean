import Criterion.Proofs.Carried

/-!
# Values that do not report

A probe that is made where a scope asks for reports answers with the value it is matched against; all
other probes answer with a boolean or null. Functions make no probes, so those in their results come
from their arguments (`call_carries`).

* `Value.Quiet`: values without a probe that reports, in any depth.
* `match_quiet`: **what a probe that does not report answers.**
-/

namespace Criterion

/-- Whether a probe answers with the value it is matched against. -/
def Probe.reports {α : Type} : Probe α → Bool
  | .relation _ _ _ reports | .interval _ _ reports => reports

namespace Value

/-- No probe in the value reports, in any depth. -/
abbrev Quiet (v : Value) : Prop := v.Carries (·.reports = false)

theorem quiet_ofBool (o : Option Bool) : (Value.ofBool? o).Quiet := by
  cases o with
  | none => exact carries_null
  | some b => exact carries_boolean b

end Value

/-! ## What tests answer -/

section Tests

variable {v w : Value}

/-- Without a report, an answer is a boolean or null. -/
theorem answer_quiet (v : Value) (o : Option Bool) : answer false v o = .ofBool? o := by
  cases o with
  | none => rfl
  | some b => cases b <;> rfl

/-- A probe that does not report answers with a boolean or null. -/
theorem match_quiet {p : Probe Value} (hp : p.reports = false)
    (h : (p.match v).outcome = .ok w) : ∃ o : Option Bool, w = .ofBool? o := by
  cases p with
  | relation site op operand reports =>
    obtain ⟨u, -, h⟩ := Run.bind_outcome_ok h
    cases h
    cases hp
    exact ⟨_, answer_quiet v _⟩
  | interval site bounds reports =>
    obtain ⟨o, -, h⟩ := Run.bind_outcome_ok h
    cases h
    cases hp
    exact ⟨o, answer_quiet v o⟩

end Tests

end Criterion

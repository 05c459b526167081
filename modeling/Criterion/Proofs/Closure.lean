import Criterion.Proofs.Limits
import Criterion.Proofs.Tags

/-!
# Arithmetic is total and closed

An operator has a result for all values. The operators on numbers may fail by overflow, and the calendar has an
end, but arithmetic answers null then, as it does for operands that do not fit together. So what it answers is an
operand again, or null: never an infinity or a fraction that is not a number, and never a boolean.

* `Value.Kind.isOperand`, `Unfit`: the kinds that arithmetic computes with, and operands without a result.
* `Value.IsResult`: what arithmetic may answer.
* `temporal_fits`: dates and durations combine with each other and with numbers only, and give such results.
* `overflow_of_failsOn`: what the operators on numbers fail with.
* `arithmetic_null_of_unfit`, `arithmetic_isResult`: **unfit operands give null, and all others a result.**
* `arithmetic_total_closed`: **an expression with an operator fails only if an operand does**, and has such a
  result.
-/

namespace Criterion

/-- The kinds of values that arithmetic computes with. -/
def Value.Kind.isOperand : Value.Kind → Bool
  | .number | .text => true
  | k => k.isTemporal

/-- Operands that have no result: one of them is nothing to compute with, or one is a text that is not joined to
another text. -/
def Unfit (op : Arithmetic) (a b : Value) : Prop :=
  a.kind.isOperand = false ∨ b.kind.isOperand = false ∨
    ((a.kind = .text ∨ b.kind = .text) ∧ ¬(op = .plus ∧ a.kind = .text ∧ b.kind = .text))

/-- What arithmetic may answer. -/
inductive Value.IsResult : Value → Prop where
  | null : IsResult .null
  | text (s : String) : IsResult (.text s)
  | number {n : Number} (h : n.isFinite = true) : IsResult (.number n)
  | temporal {v : Value} (h : v.kind.isTemporal = true) : IsResult v

/-! ## Numbers -/

/-- An operator fails on two numbers. -/
def FailsOn (op : Arithmetic) (m n : Number) (f : Failure) : Prop :=
  match op with
  | .plus => m.add n = .error f
  | .minus => m.sub n = .error f
  | .times => m.mul n = .error f
  | .over => m.div n = .error f
  | .power => False

/-- What the operators on numbers fail with is overflow. -/
theorem overflow_of_failsOn {op : Arithmetic} {m n : Number} {f : Failure} (h : FailsOn op m n f) :
    f = .overflow := by
  have hoverflow : (· = Failure.overflow) Failure.overflow := rfl
  cases op with
  | plus => exact combine_fails (R := (· = .overflow)) hoverflow _ _ m n f h
  | minus => exact combine_fails (R := (· = .overflow)) hoverflow _ _ m n f h
  | times => exact combine_fails (R := (· = .overflow)) hoverflow _ _ m n f h
  | power => exact h.elim
  | _ => exact div_fails (R := (· = .overflow)) hoverflow m n f h

/-- An operator that fails has no result. -/
theorem arithmetic_none_of_failsOn {op : Arithmetic} {m n : Number} {f : Failure} (h : FailsOn op m n f) :
    Number.arithmetic op m n = none := by
  cases op with
  | power => exact h.elim
  | _ =>
    simp only [FailsOn] at h
    simp only [Number.arithmetic, h]
    rfl

/-- A result that is not finite is none. -/
theorem isFinite_of_arithmetic {op : Arithmetic} {m n r : Number}
    (h : Number.arithmetic op m n = some r) : r.isFinite = true :=
  (Option.filter_eq_some_iff.1 h).2

/-- A number that is checked before it is answered is finite. -/
theorem isFinite_of_checked {x y : Binary64}
    (h : (if x.isFinite then Except.ok (Number.real x) else .error Failure.overflow) = .ok (.real y)) :
    y.isFinite = true := by
  by_cases hfinite : x.isFinite = true
  · rw [if_pos hfinite] at h
    rw [← Number.real.inj (Except.ok.inj h)]
    exact hfinite
  · rw [if_neg hfinite] at h
    cases h

/-- A quotient of integers is a finite fraction. -/
theorem isFinite_of_quotient {i j : Int} {x : Binary64}
    (h : (Number.whole i).div (.whole j) = .ok (.real x)) : x.isFinite = true := by
  unfold Number.div at h
  exact isFinite_of_checked h

theorem eq_ok_of_toOption {α : Type} {r : Except Failure α} {a : α} (h : r.toOption = some a) :
    r = .ok a := by
  cases r with
  | error f => cases h
  | ok b => rw [Option.some.inj h]

/-! ## Dates and durations -/

/-- A ratio of durations is finite. -/
theorem isFinite_of_ratio {p q : Duration} {x : Binary64} (h : p.ratio? q = some x) :
    x.isFinite = true := by
  obtain ⟨n, hquotient, hx⟩ := Option.bind_eq_some_iff.1 h
  cases n with
  | whole i => cases hx
  | real y =>
    rw [← Option.some.inj hx]
    exact isFinite_of_quotient (eq_ok_of_toOption hquotient)

/-- What a combination of dates and durations may be. -/
theorem isResult_of_map {α : Type} {x : Option α} {make : α → Value} {v : Value} (h : x.map make = some v)
    (hmake : ∀ a, (make a).kind.isTemporal = true) : v.IsResult := by
  obtain ⟨a, -, rfl⟩ := Option.map_eq_some_iff.1 h
  exact .temporal (hmake a)

/-- **Dates and durations combine with each other and with numbers only**, to dates, durations and finite
numbers. -/
theorem temporal_fits {op : Arithmetic} {a b v : Value} (h : Value.temporal? op a b = some v) :
    (a.kind = .number ∨ a.kind.isTemporal = true) ∧ (b.kind = .number ∨ b.kind.isTemporal = true) ∧
      v.IsResult := by
  cases op with
  | plus =>
    change Value.temporalSum? a b = some v at h
    unfold Value.temporalSum? at h
    split at h
    case h_6 => cases h
    all_goals exact ⟨.inr rfl, .inr rfl, isResult_of_map h fun _ => rfl⟩
  | minus =>
    change Value.temporalDifference? a b = some v at h
    unfold Value.temporalDifference? at h
    split at h
    case h_6 => cases h
    all_goals exact ⟨.inr rfl, .inr rfl, isResult_of_map h fun _ => rfl⟩
  | times =>
    change Value.temporalProduct? a b = some v at h
    unfold Value.temporalProduct? at h
    split at h
    · exact ⟨.inr rfl, .inl rfl, isResult_of_map h fun _ => rfl⟩
    · exact ⟨.inl rfl, .inr rfl, isResult_of_map h fun _ => rfl⟩
    · cases h
  | power => cases h
  | _ =>
    change Value.temporalQuotient? a b = some v at h
    unfold Value.temporalQuotient? at h
    split at h
    · obtain ⟨x, hratio, rfl⟩ := Option.map_eq_some_iff.1 h
      exact ⟨.inr rfl, .inr rfl, .number (isFinite_of_ratio hratio)⟩
    · exact ⟨.inr rfl, .inl rfl, isResult_of_map h fun _ => rfl⟩
    · cases h

/-! ## All values -/

/-- Operands that do not fit together give null. -/
theorem arithmetic_null_of_unfit {op : Arithmetic} {a b : Value} (h : Unfit op a b) :
    Value.arithmetic op a b = .null := by
  unfold Value.arithmetic
  split
  · rfl
  split
  · -- two texts: all that is wrong with them is the operator
    rcases h with ha | hb | ⟨-, hjoined⟩
    · cases ha
    · cases hb
    · rw [if_neg fun hplus => hjoined ⟨hplus, rfl, rfl⟩]
  · rcases h with ha | hb | ⟨htext | htext, -⟩
    · cases ha
    · cases hb
    · cases htext
    · cases htext
  · cases htemporal : Value.temporal? op a b with
    | none => rfl
    | some v =>
      obtain ⟨ha, hb, -⟩ := temporal_fits htemporal
      have hoperand : ∀ {k : Value.Kind}, k = .number ∨ k.isTemporal = true →
          k.isOperand = true ∧ k ≠ .text := by
        intro k hk
        cases k <;> simp_all [Value.Kind.isOperand, Value.Kind.isTemporal]
      rcases h with hunfit | hunfit | ⟨htext | htext, -⟩
      · rw [(hoperand ha).1] at hunfit
        cases hunfit
      · rw [(hoperand hb).1] at hunfit
        cases hunfit
      · exact absurd htext (hoperand ha).2
      · exact absurd htext (hoperand hb).2

/-- What arithmetic answers is an operand again, or null. -/
theorem arithmetic_isResult (op : Arithmetic) (a b : Value) : (Value.arithmetic op a b).IsResult := by
  unfold Value.arithmetic
  split
  · exact .null
  split
  · split
    · exact .text _
    · exact .null
  · rename_i m n _
    cases hnumber : Number.arithmetic op m n with
    | none => exact .null
    | some r => exact .number (isFinite_of_arithmetic hnumber)
  · cases htemporal : Value.temporal? op a b with
    | none => exact .null
    | some v => exact (temporal_fits htemporal).2.2

/-- An operator that fails on its numbers gives null. -/
theorem arithmetic_null_of_failsOn {op : Arithmetic} {m n : Number} {f : Failure} (h : FailsOn op m n f) :
    Value.arithmetic op (.number m) (.number n) = .null := by
  unfold Value.arithmetic
  split
  · rfl
  · simp only [arithmetic_none_of_failsOn h]
    rfl

/-- **Arithmetic is total and closed.** Whatever its operands are, an expression with an operator has a value.
It is null if an operand is nothing to compute with, or a text that is not joined to another text, and where the
operator fails on numbers, which is by overflow. In all cases it is null, a text, a finite number, a date or a
duration. -/
theorem arithmetic_total_closed (op : Arithmetic) (a b : Value) :
    (∀ (registry : Fields) (scope : Scope) (e f : Expr), (e.eval registry scope).outcome = .ok a →
      (f.eval registry scope).outcome = .ok b →
        ((Expr.arithmetic op e f).eval registry scope).outcome = .ok (Value.arithmetic op a b)) ∧
    (Unfit op a b → Value.arithmetic op a b = .null) ∧
    (∀ s t, op = .plus → a = .text s → b = .text t → Value.arithmetic op a b = .text (s ++ t)) ∧
    (∀ m n f, a = .number m → b = .number n → FailsOn op m n f →
      f = .overflow ∧ Value.arithmetic op a b = .null) ∧
    (Value.arithmetic op a b).IsResult := by
  refine ⟨?_, arithmetic_null_of_unfit, ?_, ?_, arithmetic_isResult op a b⟩
  · intro registry scope e f ha hb
    simp only [Expr.eval, Run.bind_outcome, ha, hb]
    rfl
  · rintro s t rfl rfl rfl
    rfl
  · rintro m n f rfl rfl hfails
    exact ⟨overflow_of_failsOn hfails, arithmetic_null_of_failsOn hfails⟩

/-- A boolean is no operand, although it equals a number. -/
theorem sum_with_boolean : Unfit .plus (.boolean true) (.whole 1) ∧
    Value.arithmetic .plus (.boolean true) (.whole 1) = .null := by
  have hunfit : Unfit .plus (.boolean true) (.whole 1) := .inl rfl
  exact ⟨hunfit, (arithmetic_total_closed .plus (.boolean true) (.whole 1)).2.1 hunfit⟩

end Criterion

import Criterion.Interval
import Criterion.Proofs.Rounding
import Mathlib.Algebra.Order.Ring.Int
import Mathlib.Data.Int.Order.Basic

/-!
# Intervals of integers

A bound that does not belong to an interval of numbers is moved inwards by a millionth, as a fraction. The
moved bound lies between two neighbouring integers as long as the fractions there are closer together than
two millionths, which they are below `2 ^ 34`. So no integer is passed, and only the bound itself drops out.

* `Brackets`: the integers on both sides of a place.
* `Number.exists_bound`: the place of a bound as it is tested. `Number.exists_place`: there is one below `2 ^ 53`.
* `Interval.includesNumber_whole`, `Interval.includesOrdered_whole`: the two tests.
* `Interval.integer_interval_exact`: **both are exact, the numeric one below `2 ^ 34` and between different
  bounds.**
* `Interval.excluded_bound_belongs`: it is not beyond, nor from an integer to itself.
-/

namespace Criterion

/-! ## Bounds that do not belong -/

/-- How far an excluded bound is moved, in units. -/
def boundUnits : ℕ := roundUnits unitsPerOne 1000000

/-- The same as a magnitude of the format. -/
def boundMagnitude : Magnitude := ⟨boundUnits, by decide +kernel⟩

theorem boundStep_eq : boundStep = .real (.finite false boundMagnitude) := by decide +kernel

theorem boundUnits_lt : 2 * boundUnits < unitsPerOne := by decide +kernel

theorem lt_boundUnits : unitsPerOne < 2 ^ 20 * boundUnits := by decide +kernel

/-- An integer in units. -/
def inUnits (i : ℤ) : ℤ := i * unitsPerOne

theorem inUnits_le {i j : ℤ} : inUnits i ≤ inUnits j ↔ i ≤ j :=
  mul_le_mul_iff_left₀ (Int.natCast_pos.2 unitsPerOne_pos)

theorem inUnits_add_one (i : ℤ) : inUnits (i + 1) = inUnits i + unitsPerOne := by
  rw [inUnits, inUnits, add_mul, one_mul]

/-- The integers up to a place are those up to `low`, and the integers from there on are those from `high`
on. -/
structure Brackets (place low high : ℤ) : Prop where
  le_iff : ∀ v, inUnits v ≤ place ↔ v ≤ low
  ge_iff : ∀ v, place ≤ inUnits v ↔ high ≤ v

theorem brackets_integer (a : ℤ) : Brackets (inUnits a) a a := ⟨fun _ => inUnits_le, fun _ => inUnits_le⟩

theorem brackets_between {a r : ℤ} (h : inUnits a < r) (h' : r < inUnits (a + 1)) :
    Brackets r a (a + 1) := by
  constructor
  · intro v
    constructor
    · intro hv
      by_contra hlt
      have hnext : inUnits (a + 1) ≤ inUnits v := inUnits_le.2 (by omega)
      omega
    · intro hv
      have hle : inUnits v ≤ inUnits a := inUnits_le.2 hv
      omega
  · intro v
    constructor
    · intro hv
      by_contra hlt
      have hle : inUnits v ≤ inUnits a := inUnits_le.2 (by omega)
      omega
    · intro hv
      have hnext : inUnits (a + 1) ≤ inUnits v := inUnits_le.2 hv
      omega

namespace Number

/-- The step that a bound is moved by, with its direction. -/
theorem mul_boundStep {d : ℤ} (hd : d = 0 ∨ d = 1 ∨ d = -1) :
    ∃ u : Magnitude, (whole d).mul boundStep = .ok (.real (.finite (decide (d < 0)) u)) ∧
      u.units = d.natAbs * boundUnits := by
  have hmul : ∀ {u : Magnitude}, (Binary64.ofInt d).isFinite = true →
      (Binary64.ofInt d).mul (.finite false boundMagnitude) = .finite (decide (d < 0)) u →
      (whole d).mul boundStep = .ok (.real (.finite (decide (d < 0)) u)) := by
    intro u hfinite hproduct
    have hreal : (whole d).toReal = .ok (Binary64.ofInt d) := by rw [toReal, if_pos hfinite]
    rw [boundStep_eq, mul, combine, hreal, ← hproduct]
    · rfl
    · exact fun _ _ _ h => nomatch h
  obtain rfl | rfl | rfl := hd
  · exact ⟨.zero, hmul (by decide +kernel) (by decide +kernel), by decide +kernel⟩
  · exact ⟨boundMagnitude, hmul (by decide +kernel) (by decide +kernel), by decide +kernel⟩
  · exact ⟨boundMagnitude, hmul (by decide +kernel) (by decide +kernel), by decide +kernel⟩

theorem signed_mul (d : ℤ) (n : ℕ) : signed (decide (d < 0)) (d.natAbs * n) = d * n := by
  unfold signed
  by_cases h : d < 0
  · rw [if_pos (decide_eq_true h), Nat.cast_mul, Int.ofNat_natAbs_of_nonpos h.le, neg_mul, neg_neg]
  · rw [if_neg (by rwa [decide_eq_true_iff]), Nat.cast_mul, Int.natAbs_of_nonneg (not_lt.1 h)]

theorem movedBound_of_mul {bound m : Number} {d : ℤ} (h : (whole d).mul boundStep = .ok m) :
    bound.movedBound false d = bound.add m := by
  rw [movedBound, if_neg Bool.false_ne_true, h]
  rfl

theorem add_real {a : ℤ} {x y : Binary64} (h : (whole a).toReal = .ok x) :
    (whole a).add (.real y) = .ok (.real (x.add y)) := by
  rw [add, combine, h]
  · rfl
  · exact fun _ _ _ h => nomatch h

theorem natAbs_inUnits (a : ℤ) : (inUnits a).natAbs = a.natAbs * unitsPerOne := by
  rw [inUnits, Int.natAbs_mul, Int.natAbs_natCast]

/-- An excluded bound is moved by the step, rounded as a sum of this size is. -/
theorem movedBound_rounded {a d : ℤ} {e : ℕ} (hd : d = 0 ∨ d = 1 ∨ d = -1) (ha : a.natAbs < 2 ^ 53)
    (hlt : (inUnits a + d * boundUnits).natAbs < 2 ^ (e + 53)) (he : e + 53 < 2098) :
    ∃ n r, (whole a).movedBound false d = .ok n ∧ n.units? = some r ∧
      2 * (r - (inUnits a + d * boundUnits)).natAbs ≤ 2 ^ e ∧
      (2 ^ e ∣ (inUnits a + d * boundUnits).natAbs → r = inUnits a + d * boundUnits) := by
  obtain ⟨u, hint, hunits⟩ := Binary64.ofInt_of_lt ha
  obtain ⟨v, hmul, hstep⟩ := mul_boundStep hd
  have hreal : (whole a).toReal = .ok (Binary64.ofInt a) := by
    rw [toReal, if_pos (by rw [hint, Binary64.isFinite])]
  have hsum : signed (decide (a < 0)) u.units + signed (decide (d < 0)) v.units =
      inUnits a + d * boundUnits := by
    rw [hunits, hstep, signed_mul, signed_mul, inUnits]
  obtain ⟨r, hr, hnear, hexact⟩ := Binary64.add_finite (hsum ▸ hlt) he
  rw [hsum] at hnear hexact
  exact ⟨.real _, r, by rw [movedBound_of_mul hmul, add_real hreal, hint], hr, hnear, hexact⟩

/-- An excluded bound below `2 ^ 34` is moved, and past no integer. -/
theorem exists_movedBound {a d : ℤ} (hd : d = 0 ∨ d = 1 ∨ d = -1) (ha : a.natAbs < 2 ^ 34) :
    ∃ n r, (whole a).movedBound false d = .ok n ∧ n.units? = some r ∧
      Brackets r (a + min d 0) (a + max d 0) := by
  obtain ⟨e, he⟩ : ∃ e, 1074 = e + 19 := ⟨1055, rfl⟩
  have hunits : unitsPerOne = 2 ^ e * 2 ^ 19 := (unitsPerOne_eq he).trans (Nat.pow_add 2 e 19)
  have hstep := lt_boundUnits
  have hsmall := boundUnits_lt
  have habs := natAbs_inUnits a
  have hlt : (inUnits a + d * boundUnits).natAbs < 2 ^ (e + 53) := by
    have hmul : a.natAbs * unitsPerOne ≤ (2 ^ 34 - 1) * unitsPerOne :=
      Nat.mul_le_mul_right _ (by omega)
    have hpow : 2 ^ (e + 53) = 2 ^ 34 * unitsPerOne := by
      rw [hunits, Nat.pow_add]
      omega
    rw [hpow]
    obtain rfl | rfl | rfl := hd <;> omega
  obtain ⟨n, r, hn, hr, hnear, hexact⟩ := movedBound_rounded hd (by omega) hlt (by omega)
  refine ⟨n, r, hn, hr, ?_⟩
  obtain rfl | rfl | rfl := hd
  · -- a bound that is not moved is exact
    have hdvd : 2 ^ e ∣ (inUnits a + 0 * boundUnits).natAbs := by
      rw [zero_mul, add_zero, habs, hunits]
      exact (Nat.dvd_mul_right _ _).mul_left _
    rw [hexact hdvd, zero_mul, add_zero]
    simpa using brackets_integer a
  · have hnext := inUnits_add_one a
    simpa using brackets_between (a := a) (r := r) (by omega) (by omega)
  · have hnext := inUnits_add_one (a - 1)
    rw [sub_add_cancel] at hnext
    have hbetween : Brackets r (a - 1) (a - 1 + 1) :=
      brackets_between (by omega) (by rw [sub_add_cancel]; omega)
    rw [sub_add_cancel] at hbetween
    simpa [sub_eq_add_neg] using hbetween

/-- A bound below `2 ^ 53` that belongs or is excluded has a place at which it is tested. -/
theorem exists_place {a d : ℤ} (includes : Bool) (hd : d = 0 ∨ d = 1 ∨ d = -1) (ha : a.natAbs < 2 ^ 53) :
    ∃ n p, (whole a).movedBound includes d = .ok n ∧ n.units? = some p := by
  cases includes with
  | true => exact ⟨.whole a, inUnits a, by rw [movedBound, if_pos rfl, add, combine, add_zero], rfl⟩
  | false =>
    obtain ⟨e, he, hlimit⟩ : ∃ e, 1074 = e ∧ e + 1 + 53 < 2098 := ⟨_, rfl, by decide⟩
    have hexponent : e + 1 + 53 = 54 + e := by omega
    have hpow : 2 ^ (e + 1 + 53) = 2 ^ 54 * unitsPerOne := by
      rw [hexponent, Nat.pow_add, unitsPerOne_eq he]
    have hlt : (inUnits a + d * boundUnits).natAbs < 2 ^ (e + 1 + 53) := by
      have hsmall := boundUnits_lt
      have habs := natAbs_inUnits a
      have hmul : a.natAbs * unitsPerOne ≤ 2 ^ 53 * unitsPerOne := Nat.mul_le_mul_right _ ha.le
      rw [hpow]
      obtain rfl | rfl | rfl := hd <;> omega
    obtain ⟨n, p, hn, hp, -⟩ := movedBound_rounded hd ha hlt hlimit
    exact ⟨n, p, hn, hp⟩

/-- A bound as it is tested: it is itself if it belongs or does not lie in a direction, and otherwise lies
before the next integer in that direction. -/
theorem exists_bound {a d : ℤ} {includes : Bool} (hd : d = 0 ∨ d = 1 ∨ d = -1)
    (ha : includes = false → a.natAbs < 2 ^ 34) :
    ∃ n r, (whole a).movedBound includes d = .ok n ∧ n.units? = some r ∧
      Brackets r (a + min (if includes then 0 else d) 0) (a + max (if includes then 0 else d) 0) := by
  cases includes with
  | true =>
    refine ⟨.whole a, inUnits a, ?_, rfl, by simpa using brackets_integer a⟩
    rw [movedBound, if_pos rfl, add, combine, add_zero]
  | false => exact exists_movedBound hd (ha rfl)

theorem direction_whole (a b : ℤ) : (whole a).direction (whole b) = .ok (b - a).sign := by
  have hlt : ∀ i j : ℤ, (whole i).lt (whole j) = decide (i < j) := by
    intro i j
    rw [lt, compare?, Int.compare_eq_ite_lt]
    split_ifs <;> simp_all
  have hsub : (whole b).sub (whole a) = .ok (whole (b - a)) := by rw [sub, combine]
  rw [direction, hsub]
  change Except.ok (if lt (whole 0) (whole (b - a)) = true then 1
    else if lt (whole (b - a)) (whole 0) = true then -1 else 0) = _
  rw [hlt, hlt]
  simp only [decide_eq_true_eq]
  split_ifs with hpos hneg
  · rw [Int.sign_eq_one_of_pos hpos]
  · rw [Int.sign_eq_neg_one_of_neg hneg]
  · rw [show b - a = 0 by omega, Int.sign_zero]

/-- A number lies between two others if one of them is at most it and one of them at least. -/
theorem isBetween_of_units {v m n : Number} {w p q : ℤ} (hv : v.units? = some w)
    (hm : m.units? = some p) (hn : n.units? = some q) :
    v.isBetween m n = true ↔ (p ≤ w ∨ q ≤ w) ∧ (w ≤ p ∨ w ≤ q) := by
  rw [isBetween, lt_of_units hn hm, lt_of_units hm hn, Bool.and_eq_true]
  rcases lt_trichotomy p q with h | h | h
  · rw [if_neg (by simp [h.le]), if_pos (by simp [h]), le_of_units hm hv, le_of_units hv hn]
    simp only [decide_eq_true_eq]
    omega
  · rw [if_neg (by simp [h]), if_neg (by simp [h]), le_of_units hm hv, le_of_units hv hm]
    simp only [decide_eq_true_eq]
    omega
  · rw [if_pos (by simp [h]), if_neg (by simp [h.le]), le_of_units hn hv, le_of_units hv hm]
    simp only [decide_eq_true_eq]
    omega

end Number

namespace Interval

variable {a b v : ℤ} {opening closing : String} {includesStart includesStop : Bool}

/-- Between the bounds, in whichever order, and at a bound only if that belongs. -/
def Within (a b : ℤ) (includesStart includesStop : Bool) (v : ℤ) : Prop :=
  min a b ≤ v ∧ v ≤ max a b ∧ (v = a → includesStart = true) ∧ (v = b → includesStop = true)

instance : Decidable (Within a b includesStart includesStop v) := by
  unfold Within
  infer_instance

theorem sign_cases (a b : ℤ) : (b - a).sign = 0 ∨ (b - a).sign = 1 ∨ (b - a).sign = -1 := by
  have hsign := Int.sign_trichotomy (b - a)
  omega

/-- Once both bounds are moved the test looks between them. -/
theorem includesNumber_of_moved {m n : Number}
    (hm : (Number.whole a).movedBound includesStart (b - a).sign = .ok m)
    (hn : (Number.whole b).movedBound includesStop (-(b - a).sign) = .ok n) (v : Number) :
    includesNumber (.whole a) (.whole b) includesStart includesStop v = .ok (v.isBetween m n) := by
  rw [includesNumber, Number.direction_whole]
  change (do
    let first ← (Number.whole a).movedBound includesStart (b - a).sign
    let last ← (Number.whole b).movedBound includesStop (-(b - a).sign)
    pure (v.isBetween first last)) = _
  rw [hm, hn]
  rfl

theorem includesNumber_whole (hstart : includesStart = false → a.natAbs < 2 ^ 34)
    (hstop : includesStop = false → b.natAbs < 2 ^ 34) (v : ℤ) :
    includesNumber (.whole a) (.whole b) includesStart includesStop (.whole v) =
      .ok (decide (Within a b includesStart includesStop v ∨ (a = b ∧ v = a))) := by
  have hsign := sign_cases a b
  obtain ⟨m, p, hm, hp, hstart⟩ := Number.exists_bound hsign hstart
  obtain ⟨n, q, hn, hq, hstop⟩ := Number.exists_bound (d := -(b - a).sign) (by omega) hstop
  have hv : (Number.whole v).units? = some (inUnits v) := rfl
  rw [includesNumber_of_moved hm hn, Except.ok.injEq, Bool.eq_iff_iff,
    Number.isBetween_of_units hv hp hq, hstart.le_iff, hstart.ge_iff, hstop.le_iff, hstop.ge_iff,
    decide_eq_true_iff, Within]
  rcases lt_trichotomy a b with h | h | h
  · rw [Int.sign_eq_one_of_pos (by omega)]
    cases includesStart <;> cases includesStop <;> simp <;> omega
  · rw [show b - a = 0 by omega, Int.sign_zero]
    cases includesStart <;> cases includesStop <;> simp <;> omega
  · rw [Int.sign_eq_neg_one_of_neg (by omega)]
    cases includesStart <;> cases includesStop <;> simp <;> omega

theorem lt_whole (a b : ℤ) : (Value.whole a).lt? (.whole b) = some (decide (a < b)) := by
  rw [Value.lt?, Value.whole, Value.whole, Value.standing, Number.compare?, Value.Standing.ofNumbers,
    Int.compare_eq_ite_lt]
  split_ifs <;> simp_all

theorem le_whole (a b : ℤ) : (Value.whole a).le? (.whole b) = some (decide (a ≤ b)) := by
  rw [Value.le?, Value.whole, Value.whole, Value.standing, Number.compare?, Value.Standing.ofNumbers,
    Int.compare_eq_ite_lt]
  split_ifs with hlt hgt
  · rw [decide_eq_true hlt.le]
    rfl
  · rw [decide_eq_false (not_le.2 hgt)]
    rfl
  · rw [decide_eq_true (not_lt.1 hgt)]
    rfl

/-- Values of a kind are compared exactly. -/
theorem includesOrdered_whole (a b v : ℤ) (includesStart includesStop : Bool) :
    includesOrdered ⟨.whole a, .whole b, includesStart, includesStop⟩ (.whole v) =
      some (decide (Within a b includesStart includesStop v)) := by
  have hboth : ∀ p q : Prop, ∀ [Decidable p] [Decidable q],
      ((some (decide p)).bind fun above => (some (decide q)).bind fun below =>
        pure (above && below)) = some (decide (p ∧ q)) := by
    intro p q _ _
    rw [Option.bind_some, Option.bind_some, Bool.decide_and]
    rfl
  rw [includesOrdered, lt_whole, Option.bind_eq_bind, Option.bind_some]
  by_cases h : b < a
  · rw [decide_eq_true h, if_pos rfl]
    cases includesStart <;> cases includesStop <;>
      simp only [Bool.false_eq_true, if_true, if_false, le_whole, lt_whole, hboth, Within,
        imp_false, implies_true, and_true, true_and, Option.some.injEq, decide_eq_decide] <;>
      omega
  · rw [decide_eq_false h, if_neg Bool.false_ne_true]
    cases includesStart <;> cases includesStop <;>
      simp only [Bool.false_eq_true, if_true, if_false, le_whole, lt_whole, hboth, Within,
        imp_false, implies_true, and_true, true_and, Option.some.injEq, decide_eq_decide] <;>
      omega

theorem includes_whole (a b v : ℤ) (includesStart includesStop : Bool) :
    includes ⟨.whole a, .whole b, includesStart, includesStop⟩ (.whole v) =
      (includesNumber (.whole a) (.whole b) includesStart includesStop (.whole v)).map some := rfl

/-- **Intervals of integers are exact by the order of values, and by the numeric test as long as no excluded
bound reaches `2 ^ 34` and the bounds differ.** The numeric test never fails there. In an interval from an
integer to itself it moves no bound, so that the integer belongs even if both are excluded. -/
theorem integer_interval_exact (opening closing : String) (a b v : ℤ) :
    (ofBrackets opening (.whole a) (.whole b) closing).includesOrdered (.whole v) =
      some (decide (Within a b (opening == "[") (closing == "]") v)) ∧
    ((opening ≠ "[" → a.natAbs < 2 ^ 34) → (closing ≠ "]" → b.natAbs < 2 ^ 34) →
      (ofBrackets opening (.whole a) (.whole b) closing).includes (.whole v) =
        .ok (some (decide (Within a b (opening == "[") (closing == "]") v ∨ (a = b ∧ v = a))))) := by
  refine ⟨includesOrdered_whole a b v _ _, fun hstart hstop => ?_⟩
  have hnumber := includesNumber_whole (fun h => hstart (beq_eq_false_iff_ne.1 h))
    (fun h => hstop (beq_eq_false_iff_ne.1 h)) v
  rw [ofBrackets, includes_whole, hnumber]
  rfl

/-- In `(5..1]` downwards, `1` belongs and `5` does not. -/
theorem descending_interval_exact :
    (ofBrackets "(" (.whole 5) (.whole 1) "]").includes (.whole 1) = .ok (some true) ∧
      (ofBrackets "(" (.whole 5) (.whole 1) "]").includes (.whole 5) = .ok (some false) :=
  ⟨(integer_interval_exact "(" "]" 5 1 1).2 (by decide) (by decide),
    (integer_interval_exact "(" "]" 5 1 5).2 (by decide) (by decide)⟩

/-- `(5..5)` has `5` in it. From `2 ^ 34` on the step is rounded away, so that an excluded bound belongs, and
a bound that is too large for a fraction cannot be moved at all. The order of values tells all three. -/
theorem excluded_bound_belongs :
    (ofBrackets "(" (.whole 5) (.whole 5) ")").includes (.whole 5) = .ok (some true) ∧
      (ofBrackets "(" (.whole 5) (.whole 5) ")").includesOrdered (.whole 5) = some false ∧
      (ofBrackets "(" (.whole 17179869184) (.whole 17179869190) ")").includes (.whole 17179869184) =
        .ok (some true) ∧
      (ofBrackets "[" (.whole 1) (.whole (10 ^ 400)) ")").includes (.whole 1) = .error .overflow := by
  decide +kernel

end Interval

end Criterion

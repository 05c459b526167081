import Criterion.Number
import Mathlib.Algebra.Order.Group.Unbundled.Int
import Mathlib.Data.Nat.Log
import Mathlib.Tactic.Linarith
import Mathlib.Tactic.Ring

/-!
# How far a sum is rounded

A sum of two finite numbers is the exact sum, rounded to 53 significant bits. Below `2 ^ (e + 53)` units the
rounding moves it by half of `2 ^ e` at most, and not at all if `2 ^ e` divides it. An integer below `2 ^ 53`
is therefore its own nearest number.

* `nearestDiv_bounds`, `nearestDiv_of_dvd`: a rounded quotient.
* `roundUnits_bounds`, `roundUnits_of_dvd`: a rounded magnitude. `Magnitude.of?_roundUnits`: the format has it, if
  it is below the limit.
* `Binary64.add_finite`: a sum. `Binary64.ofInt_of_lt`, `Binary64.le_ofInt`: an integer.
* `Number.units?`: the place of a finite number on the line, which comparisons go by.
-/

namespace Criterion

theorem nearestDiv_bounds (n : ℕ) {d : ℕ} (hd : 0 < d) :
    2 * (nearestDiv n d * d) ≤ 2 * n + d ∧ 2 * n ≤ 2 * (nearestDiv n d * d) + d := by
  have hn : n / d * d + n % d = n := Nat.div_add_mod' n d
  have hr : n % d < d := Nat.mod_lt n hd
  have hnext : (n / d + 1) * d = n / d * d + d := Nat.succ_mul _ _
  unfold nearestDiv
  dsimp only
  split
  · omega
  · split
    · omega
    · -- halfway between two multiples
      obtain h | h := Nat.mod_two_eq_zero_or_one (n / d)
      · rw [h, Nat.add_zero]
        omega
      · rw [h]
        omega

theorem nearestDiv_of_dvd {n d : ℕ} (hd : 0 < d) (h : d ∣ n) : nearestDiv n d * d = n := by
  have hr : n % d = 0 := Nat.mod_eq_zero_of_dvd h
  unfold nearestDiv
  dsimp only
  rw [hr, if_pos hd]
  exact Nat.div_mul_cancel h

theorem roundUnits_one (n : ℕ) : roundUnits n 1 = nearestDiv n (unitStep n) * unitStep n := by
  unfold roundUnits
  dsimp only
  rw [Nat.div_one, Nat.one_mul]

theorem unitStep_pos (n : ℕ) : 0 < unitStep n := Nat.pow_pos (by decide)

/-- The step below `2 ^ (e + 53)` divides `2 ^ e`. -/
theorem unitStep_dvd {n e : ℕ} (h : n < 2 ^ (e + 53)) : unitStep n ∣ 2 ^ e := by
  have hlog : n.log2 < e + 53 := by
    by_cases hn : n = 0
    · rw [hn, Nat.log2_zero]
      omega
    · exact (Nat.log2_lt hn).2 h
  exact Nat.pow_dvd_pow 2 (by omega)

theorem roundUnits_bounds {n e : ℕ} (h : n < 2 ^ (e + 53)) :
    2 * roundUnits n 1 ≤ 2 * n + 2 ^ e ∧ 2 * n ≤ 2 * roundUnits n 1 + 2 ^ e := by
  have hstep : unitStep n ≤ 2 ^ e := Nat.le_of_dvd (Nat.pow_pos (by decide)) (unitStep_dvd h)
  have hbounds := nearestDiv_bounds n (unitStep_pos n)
  rw [roundUnits_one]
  omega

theorem roundUnits_of_dvd {n e : ℕ} (h : n < 2 ^ (e + 53)) (hdvd : 2 ^ e ∣ n) :
    roundUnits n 1 = n := by
  rw [roundUnits_one]
  exact nearestDiv_of_dvd (unitStep_pos n) ((unitStep_dvd h).trans hdvd)

/-- Rounding does not go below a power of two. -/
theorem two_pow_le_roundUnits {n e : ℕ} (h : 2 ^ e ≤ n) : 2 ^ e ≤ roundUnits n 1 := by
  have hpos : n ≠ 0 := by
    have hpow := Nat.two_pow_pos e
    omega
  have hlog : e ≤ n.log2 := (Nat.le_log2 hpos).2 h
  have hdown : n / unitStep n ≤ nearestDiv n (unitStep n) := by
    unfold nearestDiv
    dsimp only
    split_ifs <;> omega
  -- the largest power of two that is not larger is a multiple of the step
  have hmultiple : 2 ^ (n.log2 - (n.log2 - 52)) * unitStep n = 2 ^ n.log2 := by
    change 2 ^ (n.log2 - (n.log2 - 52)) * 2 ^ (n.log2 - 52) = _
    rw [← Nat.pow_add, Nat.sub_add_cancel (Nat.sub_le _ _)]
  have hquotient : 2 ^ (n.log2 - (n.log2 - 52)) ≤ n / unitStep n := by
    rw [Nat.le_div_iff_mul_le (unitStep_pos n), hmultiple]
    exact Nat.log2_self_le hpos
  rw [roundUnits_one]
  calc 2 ^ e ≤ 2 ^ n.log2 := Nat.pow_le_pow_right (by decide) hlog
    _ = 2 ^ (n.log2 - (n.log2 - 52)) * unitStep n := hmultiple.symm
    _ ≤ nearestDiv n (unitStep n) * unitStep n := Nat.mul_le_mul_right _ (hquotient.trans hdown)

theorem unitsPerOne_eq {e : ℕ} (h : 1074 = e) : unitsPerOne = 2 ^ e := by
  delta unitsPerOne
  -- with a variable in its place the power is not computed
  generalize 1074 = k at h
  rw [h]
  exact Nat.pow_eq

theorem unitsLimit_eq {e : ℕ} (h : 2098 = e) : unitsLimit = 2 ^ e := by
  delta unitsLimit
  generalize 2098 = k at h
  rw [h]
  exact Nat.pow_eq

theorem unitsPerOne_pos : 0 < unitsPerOne := by
  obtain ⟨e, he⟩ : ∃ e, 1074 = e := ⟨_, rfl⟩
  rw [unitsPerOne_eq he]
  exact Nat.two_pow_pos e

theorem signed_natAbs (i : ℤ) : signed (decide (i < 0)) i.natAbs = i := by
  unfold signed
  by_cases h : i < 0
  · rw [if_pos (decide_eq_true h)]
    omega
  · rw [if_neg (by rwa [decide_eq_true_iff])]
    omega

namespace Magnitude

theorem isValid_iff {u : ℕ} : isValid u = true ↔ u < unitsLimit ∧ unitStep u ∣ u := by
  unfold isValid
  simp only [Bool.and_eq_true, decide_eq_true_iff, beq_iff_eq, Nat.dvd_iff_mod_eq_zero]

theorem of?_units (u : Magnitude) : of? u.units = some u := dif_pos u.valid

theorem units_of? {n : ℕ} {u : Magnitude} (h : of? n = some u) : u.units = n := by
  unfold of? at h
  split at h
  · exact congrArg units (Option.some.inj h).symm
  · cases h

theorem units_lt (u : Magnitude) : u.units < unitsLimit := (isValid_iff.1 u.valid).1

/-- A quotient by the step of a magnitude has 53 bits at most, and one more if it is rounded up to it. -/
theorem nearestDiv_le (n d : ℕ) : nearestDiv n (d * unitStep (n / d)) ≤ 2 ^ 53 := by
  have hup : ∀ m k : ℕ, nearestDiv m k ≤ m / k + 1 := by
    intro m k
    unfold nearestDiv
    dsimp only
    split_ifs <;> omega
  have hquotient : n / (d * unitStep (n / d)) < 2 ^ 53 := by
    rw [← Nat.div_div_eq_div_mul, Nat.div_lt_iff_lt_mul (unitStep_pos _)]
    change n / d < 2 ^ 53 * 2 ^ ((n / d).log2 - 52)
    rw [← Nat.pow_add]
    calc n / d < 2 ^ ((n / d).log2 + 1) := Nat.lt_log2_self
      _ ≤ 2 ^ (53 + ((n / d).log2 - 52)) := Nat.pow_le_pow_right (by decide) (by omega)
  exact (hup _ _).trans hquotient

/-- **The format has every rounded magnitude below its limit.** -/
theorem of?_roundUnits {n d : ℕ} (h : roundUnits n d < unitsLimit) :
    ∃ u, of? (roundUnits n d) = some u ∧ u.units = roundUnits n d := by
  have hdvd : unitStep (roundUnits n d) ∣ roundUnits n d := by
    have hle := nearestDiv_le n d
    unfold roundUnits
    dsimp only
    generalize nearestDiv n (d * unitStep (n / d)) = q at hle ⊢
    unfold unitStep
    generalize (n / d).log2 - 52 = e
    change unitStep (q * 2 ^ e) ∣ q * 2 ^ e
    rcases hle.lt_or_eq with hlt | rfl
    · -- all bits are kept
      have hsmall : q * 2 ^ e < 2 ^ (e + 53) := by
        rw [Nat.add_comm, Nat.pow_add]
        exact Nat.mul_lt_mul_of_pos_right hlt (Nat.two_pow_pos e)
      exact (unitStep_dvd hsmall).trans (Nat.dvd_mul_left _ _)
    · -- the rounding reached the next power of two
      rw [← Nat.pow_add]
      have hsmall : 2 ^ (53 + e) < 2 ^ (e + 1 + 53) := Nat.pow_lt_pow_right (by decide) (by omega)
      exact (unitStep_dvd hsmall).trans (Nat.pow_dvd_pow 2 (by omega))
  have hvalid : isValid (roundUnits n d) = true := isValid_iff.2 ⟨h, hdvd⟩
  exact ⟨⟨_, hvalid⟩, dif_pos hvalid, rfl⟩

/-- A magnitude of the format is not rounded. -/
theorem roundUnits_units (u : Magnitude) : roundUnits u.units 1 = u.units := by
  rw [roundUnits_one]
  exact nearestDiv_of_dvd (unitStep_pos _) (isValid_iff.1 u.valid).2

end Magnitude

namespace Binary64

/-- Units that the format has are those of a finite number. -/
theorem ofUnits_of {n : ℕ} {u : Magnitude} (negative : Bool) (h : Magnitude.of? n = some u) :
    ofUnits negative n = .finite negative u := by
  unfold ofUnits
  split
  · rename_i v hv
    rw [Option.some.inj (hv.symm.trans h)]
  · rename_i hnone
    cases hnone.symm.trans h

/-- What is finite by its units is so by the magnitude that has them. -/
theorem ofUnits_eq_finite {s t : Bool} {n : ℕ} {u : Magnitude} (h : ofUnits s n = .finite t u) :
    s = t ∧ u.units = n := by
  unfold ofUnits at h
  split at h
  · rename_i v hv
    obtain ⟨rfl, rfl⟩ := finite.inj h
    exact ⟨rfl, Magnitude.units_of? hv⟩
  · cases h

/-- What is rounded below the limit stays finite. -/
theorem ofUnits_roundUnits {n e : ℕ} (negative : Bool) (h : n < 2 ^ (e + 53)) (he : e + 53 < 2098) :
    ∃ u, ofUnits negative (roundUnits n 1) = .finite negative u ∧ u.units = roundUnits n 1 := by
  have hbounds := roundUnits_bounds h
  have hstep : 2 ^ e ≤ 2 ^ (e + 53) := Nat.pow_le_pow_right (by decide) (by omega)
  have hlimit : 2 * 2 ^ (e + 53) ≤ unitsLimit := by
    obtain ⟨k, hk⟩ : ∃ k, 2098 = k := ⟨_, rfl⟩
    rw [← Nat.pow_succ', unitsLimit_eq hk]
    exact Nat.pow_le_pow_right (by decide) (by omega)
  have hlt : roundUnits n 1 < unitsLimit := by omega
  obtain ⟨u, hu, hunits⟩ := Magnitude.of?_roundUnits hlt
  exact ⟨u, ofUnits_of negative hu, hunits⟩

/-- An integer below `2 ^ 53` is its own nearest number. -/
theorem ofInt_of_lt {i : ℤ} (h : i.natAbs < 2 ^ 53) :
    ∃ u, ofInt i = .finite (decide (i < 0)) u ∧ u.units = i.natAbs * unitsPerOne := by
  obtain ⟨e, he⟩ : ∃ e, 1074 = e := ⟨_, rfl⟩
  have hunits : i.natAbs * unitsPerOne < 2 ^ (e + 53) := by
    rw [Nat.add_comm e, Nat.pow_add, ← unitsPerOne_eq he]
    exact Nat.mul_lt_mul_of_pos_right h unitsPerOne_pos
  have hdvd : 2 ^ e ∣ i.natAbs * unitsPerOne := by
    rw [← unitsPerOne_eq he]
    exact Nat.dvd_mul_left _ _
  obtain ⟨u, hu, hround⟩ := ofUnits_roundUnits (decide (i < 0)) hunits (by omega)
  exact ⟨u, hu, hround.trans (roundUnits_of_dvd hunits hdvd)⟩

theorem sign_ofInt {i : ℤ} {s : Bool} {u : Magnitude} (h : ofInt i = .finite s u) : s = decide (i < 0) := by
  unfold ofInt ofRatio at h
  exact (ofUnits_eq_finite h).1.symm

/-- **An integer is not rounded below a power of two.** -/
theorem le_ofInt {i : ℤ} {k n : ℕ} (hk : 2 ^ k = n) {s : Bool} {u : Magnitude} (h : n ≤ i.natAbs)
    (hi : ofInt i = .finite s u) : n * unitsPerOne ≤ u.units := by
  obtain ⟨e, he⟩ : ∃ e, 1074 = e := ⟨_, rfl⟩
  have hunits : n * unitsPerOne ≤ roundUnits (i.natAbs * unitsPerOne) 1 := by
    have hmagnitude : n * unitsPerOne ≤ i.natAbs * unitsPerOne := Nat.mul_le_mul_right _ h
    rw [← hk, unitsPerOne_eq he, ← Nat.pow_add] at hmagnitude ⊢
    exact two_pow_le_roundUnits hmagnitude
  unfold ofInt ofRatio at hi
  rw [(ofUnits_eq_finite hi).2]
  exact hunits

/-- A sum below the limit is finite, half a step away from the exact sum at most, and exact if that is a
multiple of the step. -/
theorem add_finite {s t : Bool} {u v : Magnitude} {e : ℕ}
    (h : (signed s u.units + signed t v.units).natAbs < 2 ^ (e + 53)) (he : e + 53 < 2098) :
    ∃ r, ((finite s u).add (finite t v)).units? = some r ∧
      2 * (r - (signed s u.units + signed t v.units)).natAbs ≤ 2 ^ e ∧
      (2 ^ e ∣ (signed s u.units + signed t v.units).natAbs → r = signed s u.units + signed t v.units) := by
  rw [add]
  generalize signed s u.units + signed t v.units = sum at h ⊢
  by_cases hzero : sum = 0
  · rw [if_pos hzero, hzero]
    exact ⟨0, by cases s && t <;> rfl, by simp, fun _ => rfl⟩
  · obtain ⟨w, hw, hround⟩ := ofUnits_roundUnits (decide (sum < 0)) h he
    rw [if_neg hzero, hw]
    refine ⟨_, rfl, ?_, fun hdvd => ?_⟩
    · have hbounds := roundUnits_bounds h
      rw [hround]
      rcases lt_or_gt_of_ne hzero with hneg | hpos
      · rw [signed, if_pos (decide_eq_true hneg)]
        omega
      · rw [signed, if_neg (by simp; omega)]
        omega
    · rw [hround, roundUnits_of_dvd h hdvd, signed_natAbs]

end Binary64

namespace Number

/-- The place of a finite number on the line, in units. -/
def units? : Number → Option ℤ
  | .whole i => some (i * unitsPerOne)
  | .real x => x.units?

variable {m n : Number} {p q : ℤ}

/-- Finite numbers compare as their places do. -/
theorem compare_of_units (hm : m.units? = some p) (hn : n.units? = some q) :
    m.compare? n = some (compare p q) := by
  have hplace : ∀ {x : Binary64} {p : ℤ}, x.units? = some p →
      ∃ s u, x = .finite s u ∧ signed s u.units = p := by
    intro x p h
    cases x with
    | nan => cases h
    | infinite s => cases h
    | finite s u => exact ⟨s, u, rfl, Option.some.inj h⟩
  cases m with
  | whole i =>
    cases Option.some.inj hm
    cases n with
    | whole j =>
      cases Option.some.inj hn
      rw [compare?, Int.compare_eq_ite_lt, Int.compare_eq_ite_lt]
      simp only [mul_lt_mul_iff_left₀ (Int.natCast_pos.2 unitsPerOne_pos)]
    | real y =>
      obtain ⟨s, u, rfl, rfl⟩ := hplace hn
      rw [compare?, Binary64.compareInt?, Option.map_some, ← Std.OrientedOrd.eq_swap]
  | real x =>
    obtain ⟨s, u, rfl, rfl⟩ := hplace hm
    cases n with
    | whole j => cases Option.some.inj hn; rfl
    | real y =>
      obtain ⟨t, v, rfl, rfl⟩ := hplace hn
      rfl

theorem lt_of_units (hm : m.units? = some p) (hn : n.units? = some q) : m.lt n = decide (p < q) := by
  rw [lt, compare_of_units hm hn, Int.compare_eq_ite_lt]
  split_ifs <;> simp_all

theorem le_of_units (hm : m.units? = some p) (hn : n.units? = some q) : m.le n = decide (p ≤ q) := by
  rw [le, compare_of_units hm hn, Int.compare_eq_ite_lt]
  split_ifs <;> simp_all
  omega

end Number

end Criterion

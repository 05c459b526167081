import Criterion.Calendar.Date
import Mathlib.Algebra.Order.Group.Nat
import Mathlib.Data.Nat.Init
import Mathlib.Data.Nat.Notation

/-!
# Day numbers

A date's day number counts the days of the years before it, of the months of its year before it, and of its
month up to it. Days of an earlier year come before those of a later one, and so with months, so the day
number tells the date.

* `daysInYear`: the days of a year, which are those of its months.
* `Date.ordinal_injective`: **different dates have different day numbers.**
-/

namespace Criterion

/-- The days of a year. -/
def daysInYear (y : ℕ) : ℕ := if isLeapYear y then 366 else 365

namespace Date

variable {y y' m m' d d' : ℕ}

theorem daysBeforeYear_succ (hy : 1 ≤ y) :
    daysBeforeYear (y + 1) = daysBeforeYear y + daysInYear y := by
  obtain ⟨n, rfl⟩ : ∃ n, y = n + 1 := ⟨y - 1, by omega⟩
  have hleap : isLeapYear (n + 1) = true ↔
      4 ∣ n + 1 ∧ (¬ 100 ∣ n + 1 ∨ 400 ∣ n + 1) := by
    simp [isLeapYear, Nat.dvd_iff_mod_eq_zero]
  -- centuries are among the fourth years, and fourth centuries among the centuries
  have hfour : (400 ∣ n + 1 → 100 ∣ n + 1) ∧ (100 ∣ n + 1 → 4 ∣ n + 1) := by omega
  have hless : n / 100 ≤ n / 4 := by omega
  unfold daysBeforeYear daysInYear
  rw [Nat.add_sub_cancel, Nat.add_sub_cancel, Nat.succ_div, Nat.succ_div, Nat.succ_div]
  by_cases h4 : 4 ∣ n + 1 <;> by_cases h100 : 100 ∣ n + 1 <;> by_cases h400 : 400 ∣ n + 1 <;>
    simp only [hleap, h4, h100, h400, not_true, not_false_eq_true, or_true, or_false, and_true,
      and_false, if_true, if_false] at hfour ⊢ <;> omega

theorem daysBeforeMonth_succ (y : ℕ) (hm : 1 ≤ m) :
    daysBeforeMonth y (m + 1) = daysBeforeMonth y m + daysInMonth y m := by
  obtain ⟨k, rfl⟩ : ∃ k, m = k + 1 := ⟨m - 1, by omega⟩
  unfold daysBeforeMonth
  simp only [Nat.add_sub_cancel, List.range_succ, List.map_append, List.foldl_append, List.map_cons,
    List.map_nil, List.foldl_cons, List.foldl_nil]

/-- The months of a year have all its days. -/
theorem daysBeforeMonth_thirteen (y : ℕ) : daysBeforeMonth y 13 = daysInYear y := by
  unfold daysInYear
  cases h : isLeapYear y <;> simp [daysBeforeMonth, List.range_succ, daysInMonth, h]

theorem daysBeforeYear_mono (hy : 1 ≤ y) (hle : y ≤ y') : daysBeforeYear y ≤ daysBeforeYear y' := by
  induction hle with
  | refl => exact Nat.le_refl _
  | step hle ih =>
    rw [Nat.succ_eq_add_one, daysBeforeYear_succ (Nat.le_trans hy hle)]
    omega

theorem daysBeforeMonth_mono (hm : 1 ≤ m) (hle : m ≤ m') :
    daysBeforeMonth y m ≤ daysBeforeMonth y m' := by
  induction hle with
  | refl => exact Nat.le_refl _
  | step hle ih =>
    rw [Nat.succ_eq_add_one, daysBeforeMonth_succ y (Nat.le_trans hm hle)]
    omega

/-- The parts of a date are those of the calendar. -/
theorem bounds (a : Date) : 1 ≤ a.year ∧ 1 ≤ a.month ∧ a.month ≤ 12 ∧ 1 ≤ a.day ∧
    a.day ≤ daysInMonth a.year a.month := by
  have h := a.valid
  simp only [isValid, Bool.and_eq_true, decide_eq_true_eq] at h
  omega

/-- A day of a month comes before the next month. -/
theorem monthly (a : Date) {m : ℕ} (h : a.month < m) :
    daysBeforeMonth a.year a.month + a.day ≤ daysBeforeMonth a.year m := by
  obtain ⟨-, hm, -, -, hd⟩ := a.bounds
  have hnext := daysBeforeMonth_succ a.year hm
  have hmono := daysBeforeMonth_mono (y := a.year) (show 1 ≤ a.month + 1 by omega) h
  omega

/-- A day of a year comes before the next year. -/
theorem yearly (a : Date) {y : ℕ} (h : a.year < y) : a.ordinal ≤ daysBeforeYear y := by
  obtain ⟨hy, -, hm, -, -⟩ := a.bounds
  have hmonths := a.monthly (show a.month < 13 by omega)
  rw [daysBeforeMonth_thirteen] at hmonths
  have hnext := daysBeforeYear_succ hy
  have hmono := daysBeforeYear_mono (show 1 ≤ a.year + 1 by omega) h
  unfold ordinal
  omega

/-- **Different dates have different day numbers.** -/
theorem ordinal_injective : Function.Injective ordinal := by
  intro a b h
  have ha := a.bounds
  have hb := b.bounds
  have hyear : a.year = b.year := by
    by_contra hne
    rcases Nat.lt_or_gt_of_ne hne with hlt | hlt
    · have hle := a.yearly hlt
      have hdays : daysBeforeYear b.year < b.ordinal := by unfold ordinal; omega
      omega
    · have hle := b.yearly hlt
      have hdays : daysBeforeYear a.year < a.ordinal := by unfold ordinal; omega
      omega
  unfold ordinal at h
  rw [hyear] at h
  have hmonth : a.month = b.month := by
    by_contra hne
    rcases Nat.lt_or_gt_of_ne hne with hlt | hlt
    · have hle := a.monthly hlt
      rw [hyear] at hle
      omega
    · have hle := b.monthly hlt
      omega
  rw [hmonth] at h
  have hday : a.day = b.day := by omega
  obtain ⟨ay, am, ad, av⟩ := a
  obtain ⟨by', bm, bd, bv⟩ := b
  dsimp only at hyear hmonth hday
  subst hyear hmonth hday
  rfl

end Date

end Criterion

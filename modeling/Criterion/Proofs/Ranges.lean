import Criterion.Proofs.Failures
import Criterion.Proofs.Rounding
import Criterion.Proofs.Traces

/-!
# Ranges

A range between two numbers without fractions begins with the first one, ends with the second one, and goes up or
down by one. So the range back is its reverse, and at a number in between it can be cut in two. Other bounds are
refused with a message that shows them, unless one of them has too many digits to be shown.

* `Value.IsWhole`: numbers that equal an integer, and `Value.whole?_eq_some_iff`: these are the bounds of ranges.
* `Value.range_refused`, `Value.range_refused_overlong`: other bounds are refused, with the message or without.
* `IsRow`: integers in a row; `integersBetween_reverse`, `integersBetween_append`: the way back, and a way with a stop.
* `range_exact`: **what a range is, and that the range back is its reverse.**
* `range_from_long_number_unannounced`: a range that is refused without the message.
-/

namespace Criterion

/-! ## Bounds -/

/-- A number, of either kind, that equals an integer. -/
structure Value.IsWhole (v : Value) (i : ℤ) : Prop where
  number : v.kind = .number
  equal : v.eqv (.whole i) = true

/-- A number equals an integer if its place on the line is that of the integer. -/
theorem Number.eqv_whole_iff {n : Number} {i : ℤ} :
    n.eqv (.whole i) = true ↔ n.units? = some (i * unitsPerOne) := by
  have hi : (Number.whole i).units? = some (i * unitsPerOne) := rfl
  cases hn : n.units? with
  | some p => rw [eqv, compare_of_units hn hi, beq_iff_eq, Option.some_inj, Option.some_inj, compare_eq_iff_eq]
  | none =>
    -- no integer equals an infinity or what is not a number
    refine iff_of_false ?_ nofun
    cases n with
    | whole j => cases hn
    | real x =>
      cases x with
      | nan => exact nofun
      | infinite s => cases s <;> exact nofun
      | finite s u => cases hn

theorem Number.whole?_finite (s : Bool) (u : Magnitude) : (Number.real (.finite s u)).whole? =
    if signed s u.units % unitsPerOne = 0 then some (signed s u.units / unitsPerOne) else none := by
  by_cases h : signed s u.units % unitsPerOne = 0
  · rw [if_pos h]
    exact if_pos (beq_iff_eq.2 h)
  · rw [if_neg h]
    exact if_neg fun hwhole => h (beq_iff_eq.1 hwhole)

theorem Number.whole?_eq_some_iff {n : Number} {i : ℤ} : n.whole? = some i ↔ n.eqv (.whole i) = true := by
  have hpos : (0 : ℤ) < unitsPerOne := Int.natCast_pos.2 unitsPerOne_pos
  rw [eqv_whole_iff]
  cases n with
  | whole j => rw [whole?, units?, Option.some_inj, Option.some_inj, Int.mul_eq_mul_right_iff hpos.ne']
  | real x =>
    cases x with
    | nan | infinite => exact iff_of_false (fun h => by cases h) (fun h => by cases h)
    | finite s u =>
      -- the units make the integer exactly if they are that many times one
      have hunits : signed s u.units = i * unitsPerOne ↔
          signed s u.units % unitsPerOne = 0 ∧ signed s u.units / unitsPerOne = i := by
        constructor
        · intro h
          rw [h]
          exact ⟨Int.mul_emod_left _ _, Int.mul_ediv_cancel _ hpos.ne'⟩
        · rintro ⟨hmod, rfl⟩
          exact (Int.ediv_mul_cancel (Int.dvd_of_emod_eq_zero hmod)).symm
      rw [whole?_finite, units?, Binary64.units?, Option.some_inj, hunits, Option.ite_none_right_eq_some,
        Option.some_inj]

namespace Value

variable {a b : Value} {i : ℤ}

theorem whole?_eq_some_iff {v : Value} : v.whole? = some i ↔ v.IsWhole i := by
  constructor
  · intro h
    cases v with
    | number n => exact ⟨rfl, Number.whole?_eq_some_iff.1 h⟩
    | _ => cases h
  · rintro ⟨hnumber, hequal⟩
    obtain ⟨n, rfl⟩ := number_of_kind hnumber
    exact Number.whole?_eq_some_iff.2 hequal

theorem range_of_whole {low high : ℤ} (ha : a.IsWhole low) (hb : b.IsWhole high) :
    a.range b = .ok (integersBetween low high) := by
  rw [range, whole?_eq_some_iff.2 ha, whole?_eq_some_iff.2 hb]

/-- Other bounds are shown, the first one first. -/
theorem range_of_not_whole (h : ¬((∃ low, a.IsWhole low) ∧ ∃ high, b.IsWhole high)) :
    a.range b = (do
      let low ← a.shown
      let high ← b.shown
      .error (.unsupportedRange low high)) := by
  unfold range
  split
  · rename_i low high ha hb
    exact absurd ⟨⟨low, whole?_eq_some_iff.1 ha⟩, high, whole?_eq_some_iff.1 hb⟩ h
  · rfl

theorem range_refused (h : ¬((∃ low, a.IsWhole low) ∧ ∃ high, b.IsWhole high))
    (hshort : ¬(a.Overlong ∨ b.Overlong)) :
    ∃ first last f, a.shown = .ok first ∧ b.shown = .ok last ∧ a.range b = .error f ∧
      f.report? = some ⟨"RangeConstructionFailure", s!"unsupported range {first}..{last}"⟩ := by
  obtain ⟨ha, hb⟩ := not_or.1 hshort
  obtain ⟨first, hfirst⟩ := (shown_iff a).2 ha
  obtain ⟨last, hlast⟩ := (shown_iff b).2 hb
  refine ⟨first, last, .unsupportedRange first last, hfirst, hlast, ?_, rfl⟩
  rw [range_of_not_whole h, hfirst, hlast]
  rfl

/-- A bound that cannot be shown is refused, too, but not with the message that would show it. -/
theorem range_refused_overlong (h : ¬((∃ low, a.IsWhole low) ∧ ∃ high, b.IsWhole high))
    (hlong : a.Overlong ∨ b.Overlong) : a.range b = .error .tooManyDigits := by
  rw [range_of_not_whole h]
  by_cases ha : a.Overlong
  · rw [ha.shown_eq]
    rfl
  · obtain ⟨first, hfirst⟩ := (shown_iff a).2 ha
    rw [hfirst, (hlong.resolve_left ha).shown_eq]
    rfl

end Value

/-! ## Integers in a row -/

theorem length_integersBetween (low high : ℤ) : (integersBetween low high).length = (high - low).natAbs + 1 := by
  unfold integersBetween progression
  rw [List.length_map, List.length_range]
  omega

theorem getElem_progression {count start step : ℤ} {i : ℕ} (h : i < (progression count start step).length) :
    (progression count start step)[i] = start + i * step := by
  simp only [progression, List.getElem_map, List.getElem_range]

/-- Each integer is as far from the first one as its place is, in the direction of the last one. -/
theorem getElem_integersBetween {low high : ℤ} {i : ℕ} (h : i < (integersBetween low high).length) :
    (integersBetween low high)[i] = low + i * (high - low).sign := by
  have hbound : i < (high - low).natAbs + 1 := by rwa [length_integersBetween] at h
  refine (getElem_progression h).trans ?_
  rcases lt_trichotomy high low with hlt | rfl | hgt
  · rw [if_pos hlt, Int.sign_eq_neg_one_of_neg (by omega)]
  · -- there is only one integer
    obtain rfl : i = 0 := by omega
    simp
  · rw [if_neg hgt.not_gt, Int.sign_eq_one_of_pos (by omega)]

/-- The steps in the direction of the last integer lead there. -/
theorem add_natAbs_mul_sign (low high : ℤ) : low + ((high - low).natAbs : ℕ) * (high - low).sign = high := by
  rw [mul_comm, Int.sign_mul_natAbs]
  omega

theorem head?_integersBetween (low high : ℤ) : (integersBetween low high).head? = some low := by
  have hlength : 0 < (integersBetween low high).length := by
    rw [length_integersBetween]
    omega
  rw [List.head?_eq_getElem?, List.getElem?_eq_getElem hlength, getElem_integersBetween]
  simp

/-- From each integer one step leads to the next one. -/
theorem isChain_integersBetween (low high : ℤ) :
    (integersBetween low high).IsChain fun m n => n = m + (high - low).sign := by
  rw [List.isChain_iff_getElem]
  intro i h
  rw [getElem_integersBetween, getElem_integersBetween]
  push_cast
  ring

theorem integersBetween_reverse (low high : ℤ) :
    (integersBetween low high).reverse = integersBetween high low := by
  have hlength : (integersBetween low high).reverse.length = (integersBetween high low).length := by
    rw [List.length_reverse, length_integersBetween, length_integersBetween]
    omega
  refine List.ext_getElem hlength fun i hi hi' => ?_
  have hbound : i ≤ (high - low).natAbs := by
    rw [length_integersBetween] at hi'
    omega
  have hlast := add_natAbs_mul_sign low high
  have hback : (low - high).sign = -(high - low).sign := by
    rw [← Int.sign_neg, neg_sub]
  have hplace : (integersBetween low high).length - 1 - i = (high - low).natAbs - i := by
    rw [length_integersBetween, Nat.add_sub_cancel]
  rw [List.getElem_reverse, getElem_integersBetween, getElem_integersBetween, hback, hplace, Nat.cast_sub hbound]
  calc low + (((high - low).natAbs : ℤ) - i) * (high - low).sign
      = low + (high - low).natAbs * (high - low).sign + i * -(high - low).sign := by ring
    _ = high + i * -(high - low).sign := by rw [hlast]

theorem getLast?_integersBetween (low high : ℤ) : (integersBetween low high).getLast? = some high := by
  rw [List.getLast?_eq_head?_reverse, integersBetween_reverse, head?_integersBetween]

/-- A row of integers from one to another, one by one. -/
structure IsRow (low high : ℤ) (items : List ℤ) : Prop where
  length : items.length = (high - low).natAbs + 1
  first : items.head? = some low
  last : items.getLast? = some high
  steps : items.IsChain fun m n => n = m + (high - low).sign

theorem isRow_integersBetween (low high : ℤ) : IsRow low high (integersBetween low high) :=
  ⟨length_integersBetween low high, head?_integersBetween low high, getLast?_integersBetween low high,
    isChain_integersBetween low high⟩

/-- A range upwards is cut in two at a number in it, which both parts have. -/
theorem integersBetween_append {low mid high : ℤ} (h : low ≤ mid) (h' : mid ≤ high) :
    integersBetween low high = integersBetween low mid ++ (integersBetween mid high).tail := by
  have hup : ∀ {low high : ℤ}, low ≤ high → ∀ {i : ℕ} (hi : i < (integersBetween low high).length),
      (integersBetween low high)[i] = low + i := by
    intro low high h i hi
    rw [getElem_integersBetween]
    rw [length_integersBetween] at hi
    obtain rfl | hlt := h.eq_or_lt
    · obtain rfl : i = 0 := by omega
      simp
    · rw [Int.sign_eq_one_of_pos (by omega), mul_one]
  refine List.ext_getElem ?_ fun i hi hi' => ?_
  · simp only [List.length_append, List.length_tail, length_integersBetween]
    omega
  · rw [hup (h.trans h'), List.getElem_append]
    split
    · rw [hup h]
    · rename_i hsecond
      rw [length_integersBetween] at hsecond
      simp only [List.getElem_tail, hup h', length_integersBetween]
      omega

/-! ## Ranges of values -/

/-- **Between two numbers without fractions a range is the row of the integers from one to the other.** The range
back is its reverse, and an upward range is cut in two by a number in between, which is the last one of the first
part and the first one of the second. All other bounds are refused with a message that shows both, except that
bounds with integers of too many digits are refused without it. -/
theorem range_exact (a b : Value) :
    (∀ low high, a.IsWhole low → b.IsWhole high → ∃ items, a.range b = .ok items ∧ IsRow low high items ∧
      b.range a = .ok items.reverse ∧
      ∀ c mid, c.IsWhole mid → low ≤ mid → mid ≤ high →
        ∃ before after, a.range c = .ok before ∧ c.range b = .ok after ∧ items = before ++ after.tail) ∧
    (¬((∃ low, a.IsWhole low) ∧ ∃ high, b.IsWhole high) →
      (¬(a.Overlong ∨ b.Overlong) →
        ∃ first last f, a.shown = .ok first ∧ b.shown = .ok last ∧ a.range b = .error f ∧
          f.report? = some ⟨"RangeConstructionFailure", s!"unsupported range {first}..{last}"⟩) ∧
      (a.Overlong ∨ b.Overlong → a.range b = .error .tooManyDigits)) := by
  refine ⟨fun low high ha hb => ?_, fun h => ⟨Value.range_refused h, Value.range_refused_overlong h⟩⟩
  refine ⟨integersBetween low high, Value.range_of_whole ha hb, isRow_integersBetween low high, ?_, ?_⟩
  · rw [integersBetween_reverse]
    exact Value.range_of_whole hb ha
  · intro c mid hc h h'
    exact ⟨_, _, Value.range_of_whole ha hc, Value.range_of_whole hc hb, integersBetween_append h h'⟩

/-- From three down to one, and a range from false. -/
theorem range_exact_three_one :
    (∃ items, Value.range (.whole 3) (.number (.real (.ofInt 1))) = .ok items ∧ items.length = 3) ∧
      ∃ f, Value.range (.boolean false) .null = .error f ∧
        f.report? = some ⟨"RangeConstructionFailure", "unsupported range False..None"⟩ := by
  constructor
  · have hthree : (Value.whole 3).IsWhole 3 := ⟨rfl, by decide +kernel⟩
    have hone : (Value.number (.real (.ofInt 1))).IsWhole 1 := ⟨rfl, by decide +kernel⟩
    obtain ⟨items, hitems, hrow, -⟩ := (range_exact (.whole 3) (.number (.real (.ofInt 1)))).1 3 1 hthree hone
    exact ⟨items, hitems, hrow.length⟩
  · have hfalse : ¬((∃ low, (Value.boolean false).IsWhole low) ∧ ∃ high, Value.null.IsWhole high) := by
      rintro ⟨⟨_, hnumber, -⟩, -⟩
      cases hnumber
    have hshort : ¬((Value.boolean false).Overlong ∨ Value.null.Overlong) := by rintro (⟨⟨⟩⟩ | ⟨⟨⟩⟩)
    obtain ⟨first, last, f, hfirst, hlast, hf, hreport⟩ :=
      ((range_exact (.boolean false) .null).2 hfalse).1 hshort
    cases hfirst
    cases hlast
    exact ⟨f, hf, hreport⟩

/-- A range that begins with a number that is too long to be shown is refused without the message. -/
theorem range_from_long_number_unannounced :
    (evaluate .standard "for x in (10**1000)**5 .. null return x" []).outcome = .error .tooManyDigits ∧
      ¬ Failure.Documented .tooManyDigits := by
  have hfail : failureOf (evaluate .standard "for x in (10**1000)**5 .. null return x" []).outcome =
      some .tooManyDigits := by decide +kernel
  exact ⟨eq_error_of_failureOf hfail, by decide⟩

end Criterion

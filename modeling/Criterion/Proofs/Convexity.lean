import Criterion.Proofs.Between

/-!
# Intervals have no gaps and no direction

An interval of numbers moves its excluded bounds towards each other and includes what lies between the two
places that it gets. Any other interval puts its bounds in order first. Either way it is told by one pair of
places or values, in which the two bounds stand alike, so that the interval does not change if it is written
backwards with each bracket staying at its bound, and a value between two of its values is in it.

* `Value.reaches?`, `Value.within?`: one bound that belongs or does not, and two of them.
* `Value.reaches_trans`, `Value.trans_reaches`: what is beyond a bound stays so farther from it.
* `Interval.Surrounds`, `Interval.exists_surrounds`: the two places of an interval of integers.
* `Interval.Testable`: the bounds for which the test never fails.
* `Interval.mirrored_and_convex`: **an interval is its mirror image, and is convex.**
-/

namespace Criterion

/-! ## One bound and two -/

namespace Value

variable {a b c u v w low high : Value} {o p : Ordering} {belongs : Bool}

/-- Whether `a` is below `b`, or at it if the bound of the two belongs. -/
def reaches? (belongs : Bool) (a b : Value) : Option Bool :=
  if belongs then a.le? b else a.lt? b

/-- Whether a value lies between two bounds, each of which belongs or does not. -/
def within? (low high : Value) (includesLow includesHigh : Bool) (v : Value) : Option Bool := do
  let above ← reaches? includesLow low v
  let below ← reaches? includesHigh v high
  return above && below

theorem reaches_of_standing (belongs : Bool) (h : a.standing b = .ordered o) :
    reaches? belongs a b = some (o == .lt || belongs && o == .eq) := by
  rw [reaches?, le_of_standing h, lt_of_standing h]
  cases belongs <;> cases o <;> rfl

theorem reaches_of_incomparable (belongs : Bool) (h : a.standing b = .incomparable) :
    reaches? belongs a b = none := by
  rw [reaches?, le?, lt?, h, ite_self]

theorem reaches_iff (ha : a.FloatFree) (hb : b.FloatFree) :
    reaches? belongs a b = some true ↔
      ∃ o, a.standing b = .ordered o ∧ (o = .lt ∨ belongs = true ∧ o = .eq) := by
  obtain hnone | ⟨o, ho, -⟩ := standing_cases ha hb
  · rw [reaches_of_incomparable belongs hnone, hnone]
    exact iff_of_false nofun fun ⟨_, h, _⟩ => nomatch h
  · simp [reaches_of_standing belongs ho, ho]

/-- A value that is at most another one stands before it or is equal to it. -/
theorem standing_of_atMost (ha : a.FloatFree) (hb : b.FloatFree) (h : Holds .atMost a b) :
    a.sameKind b = true ∧ (a.standing b = .ordered .lt ∨ a.eqv b = true) := by
  obtain hnone | ⟨o, hs, hkind, hanswers⟩ := compare_cases ha hb
  · exact nomatch (hnone .atMost (by simp [orderings])).1.symm.trans h
  · refine ⟨hkind, ?_⟩
    have hequal : some (a.eqv b) = some (answers o .equal) := (hanswers .equal).1
    have hle : answers o .atMost = true := Option.some.inj ((hanswers .atMost).1.symm.trans h)
    cases o with
    | lt => exact .inl hs
    | eq => exact .inr (Option.some.inj hequal)
    | gt => cases hle

theorem eqv_of_standing (ha : a.FloatFree) (hb : b.FloatFree) (h : a.standing b = .ordered .eq) :
    a.eqv b = true := by
  obtain hnone | ⟨o, ho, heq⟩ := standing_cases ha hb
  · exact nomatch h.symm.trans hnone
  · cases h.symm.trans ho
    exact heq.1 rfl

/-- What is above a lower bound stays so upwards. -/
theorem reaches_trans (ha : a.FloatFree) (hu : u.FloatFree) (hv : v.FloatFree)
    (h : reaches? belongs a u = some true) (huv : Holds .atMost u v) :
    reaches? belongs a v = some true := by
  obtain ⟨o, ho, hor⟩ := (reaches_iff ha hu).1 h
  refine (reaches_iff ha hv).2 ?_
  -- one strict step is enough, and without one `v` is as far as `u`
  obtain hlt | heqv := (standing_of_atMost hu hv huv).2
  · obtain rfl | ⟨-, rfl⟩ := hor
    · exact ⟨.lt, standing_trans ha hu hv ho hlt, .inl rfl⟩
    · exact ⟨.lt, (standing_congr ha hu hv (eqv_of_standing ha hu ho)).trans hlt, .inl rfl⟩
  · exact ⟨o, (standing_congr_right ha hu hv heqv).symm.trans ho, hor⟩

/-- What is below an upper bound stays so downwards. -/
theorem trans_reaches (hv : v.FloatFree) (hw : w.FloatFree) (hb : b.FloatFree)
    (hvw : Holds .atMost v w) (h : reaches? belongs w b = some true) :
    reaches? belongs v b = some true := by
  obtain ⟨o, ho, hor⟩ := (reaches_iff hw hb).1 h
  refine (reaches_iff hv hb).2 ?_
  obtain hlt | heqv := (standing_of_atMost hv hw hvw).2
  · obtain rfl | ⟨-, rfl⟩ := hor
    · exact ⟨.lt, standing_trans hv hw hb hlt ho, .inl rfl⟩
    · exact ⟨.lt, (standing_congr_right hv hw hb (eqv_of_standing hw hb ho)).symm.trans hlt, .inl rfl⟩
  · exact ⟨o, (standing_congr hv hw hb heqv).trans ho, hor⟩

theorem within_iff {i j : Bool} :
    within? low high i j v = some true ↔
      reaches? i low v = some true ∧ reaches? j v high = some true := by
  rw [within?]
  cases reaches? i low v with
  | none => exact iff_of_false nofun fun h => nomatch h.1
  | some above =>
    cases reaches? j v high with
    | none => exact iff_of_false nofun fun h => nomatch h.2
    | some below => cases above <;> cases below <;> decide

/-- Between two bounds lies all that is between two values there. -/
theorem within_convex {i j : Bool} (hlow : low.FloatFree) (hhigh : high.FloatFree) (hu : u.FloatFree)
    (hv : v.FloatFree) (hw : w.FloatFree) (hlu : within? low high i j u = some true)
    (hlw : within? low high i j w = some true) (huv : Holds .atMost u v) (hvw : Holds .atMost v w) :
    within? low high i j v = some true :=
  within_iff.2 ⟨reaches_trans hlow hu hv (within_iff.1 hlu).1 huv,
    trans_reaches hv hw hhigh hvw (within_iff.1 hlw).2⟩

/-- Equal bounds may be swapped together with whether they belong: only the bound itself lies between them,
and only if both belong. -/
theorem within_swap {i j : Bool} (ha : a.FloatFree) (hb : b.FloatFree) (hv : v.FloatFree)
    (hab : a.eqv b = true) : within? a b i j v = within? b a j i v := by
  have hreaches : ∀ k, reaches? k b v = reaches? k a v ∧ reaches? k v b = reaches? k v a := by
    intro k
    rw [reaches?, reaches?, reaches?, reaches?, le?, lt?, le?, lt?, le?, lt?, le?, lt?,
      standing_congr ha hb hv hab, standing_congr_right hv ha hb hab]
    exact ⟨rfl, rfl⟩
  rw [within?, within?, (hreaches j).1, (hreaches j).2]
  obtain hnone | ⟨o, ho, -⟩ := standing_cases ha hv
  · rw [reaches_of_incomparable i hnone, reaches_of_incomparable j hnone]
    rfl
  · have ho' : v.standing a = .ordered o.swap := by rw [standing_swap ha hv, ho]; rfl
    rw [reaches_of_standing i ho, reaches_of_standing j ho, reaches_of_standing i ho',
      reaches_of_standing j ho']
    cases o <;> cases i <;> cases j <;> rfl

end Value

namespace Interval

/-! ## By the order of values -/

section

variable {a b u v w : Value} {i j : Bool}

theorem includesOrdered_eq (a b : Value) (i j : Bool) (v : Value) :
    includesOrdered ⟨a, b, i, j⟩ v = (b.lt? a).bind fun descending =>
      if descending then Value.within? b a j i v else Value.within? a b i j v := by
  rw [includesOrdered]
  cases b.lt? a with
  | none => rfl
  | some descending => cases descending <;> cases i <;> cases j <;> rfl

theorem includesOrdered_mirror (ha : a.FloatFree) (hb : b.FloatFree) (hv : v.FloatFree) :
    includesOrdered ⟨a, b, i, j⟩ v = includesOrdered ⟨b, a, j, i⟩ v := by
  rw [includesOrdered_eq, includesOrdered_eq]
  obtain hnone | ⟨o, ho, heq⟩ := Value.standing_cases ha hb
  · have hnone' : b.standing a = .incomparable := by rw [Value.standing_swap ha hb, hnone]; rfl
    rw [Value.lt?, Value.lt?, hnone, hnone']
    rfl
  · have ho' : b.standing a = .ordered o.swap := by rw [Value.standing_swap ha hb, ho]; rfl
    rw [Value.lt_of_standing ho, Value.lt_of_standing ho']
    cases o with
    | lt => rfl
    | eq => exact Value.within_swap ha hb hv (heq.1 rfl)
    | gt => rfl

theorem includesOrdered_convex (ha : a.FloatFree) (hb : b.FloatFree) (hu : u.FloatFree)
    (hv : v.FloatFree) (hw : w.FloatFree) (hlu : includesOrdered ⟨a, b, i, j⟩ u = some true)
    (hlw : includesOrdered ⟨a, b, i, j⟩ w = some true) (huv : Value.Holds .atMost u v)
    (hvw : Value.Holds .atMost v w) : includesOrdered ⟨a, b, i, j⟩ v = some true := by
  rw [includesOrdered_eq] at hlu hlw ⊢
  cases hlt : b.lt? a with
  | none => rw [hlt] at hlu; cases hlu
  | some descending =>
    rw [hlt, Option.bind_some] at hlu hlw
    rw [Option.bind_some]
    cases descending with
    | false => exact Value.within_convex ha hb hu hv hw hlu hlw huv hvw
    | true => exact Value.within_convex hb ha hu hv hw hlu hlw huv hvw

/-- The interval as a test of values of its kind, by their order. -/
def includesKind (i : Interval Value) (v : Value) : Option Bool :=
  if i.start.sameKind i.stop && i.start.sameKind v then i.includesOrdered v else none

theorem includesKind_of_null (h : a = .null ∨ b = .null ∨ v = .null) :
    includesKind ⟨a, b, i, j⟩ v = none := by
  rw [includesKind]
  split
  case isFalse => rfl
  case isTrue hsame =>
    -- all three are null
    rw [Bool.and_eq_true, Value.sameKind, Value.sameKind, beq_iff_eq, beq_iff_eq] at hsame
    dsimp only at hsame
    have ha : a = .null := by
      obtain rfl | rfl | rfl := h
      · rfl
      · exact Value.null_of_kind hsame.1
      · exact Value.null_of_kind hsame.2
    subst ha
    rw [Value.null_of_kind hsame.1.symm]
    rfl

/-- Between values that are not all numbers the order decides. -/
theorem includes_eq (a b : Value) (i j : Bool) (v : Value) :
    (∃ l m n, a = .number l ∧ b = .number m ∧ v = .number n) ∨
      includes ⟨a, b, i, j⟩ v = .ok (includesKind ⟨a, b, i, j⟩ v) := by
  rw [includes.eq_def]
  dsimp only
  split
  case h_1 => exact .inr (congrArg _ (includesKind_of_null (.inl rfl)).symm)
  case h_2 => exact .inr (congrArg _ (includesKind_of_null (.inr (.inl rfl))).symm)
  case h_3 => exact .inr (congrArg _ (includesKind_of_null (.inr (.inr rfl))).symm)
  case h_4 => exact .inl ⟨_, _, _, rfl, rfl, rfl⟩
  case h_5 => exact .inr rfl

theorem includesKind_eq_some_iff :
    includesKind ⟨a, b, i, j⟩ v = some true ↔
      a.sameKind b = true ∧ a.sameKind v = true ∧ includesOrdered ⟨a, b, i, j⟩ v = some true := by
  rw [includesKind]
  dsimp only
  split
  case isTrue h => rw [Bool.and_eq_true] at h; simp [h.1, h.2]
  case isFalse h =>
    rw [Bool.and_eq_true] at h
    exact iff_of_false nofun fun h' => h ⟨h'.1, h'.2.1⟩

theorem includesKind_mirror (ha : a.FloatFree) (hb : b.FloatFree) (hv : v.FloatFree) :
    includesKind ⟨a, b, i, j⟩ v = includesKind ⟨b, a, j, i⟩ v := by
  rw [includesKind, includesKind]
  dsimp only
  rw [includesOrdered_mirror ha hb hv]
  have hsame : (a.sameKind b && a.sameKind v) = (b.sameKind a && b.sameKind v) := by
    rw [Bool.eq_iff_iff, Bool.and_eq_true, Bool.and_eq_true, Value.sameKind_symm b a]
    exact and_congr_right fun hab =>
      ⟨Value.sameKind_trans ((Value.sameKind_symm b a).trans hab), Value.sameKind_trans hab⟩
  rw [hsame]

theorem includesKind_convex (ha : a.FloatFree) (hb : b.FloatFree) (hu : u.FloatFree)
    (hv : v.FloatFree) (hw : w.FloatFree) (hau : includesKind ⟨a, b, i, j⟩ u = some true)
    (haw : includesKind ⟨a, b, i, j⟩ w = some true) (huv : Value.Holds .atMost u v)
    (hvw : Value.Holds .atMost v w) : includesKind ⟨a, b, i, j⟩ v = some true := by
  rw [includesKind_eq_some_iff] at hau haw ⊢
  exact ⟨hau.1, Value.sameKind_trans hau.2.1 (Value.standing_of_atMost hu hv huv).1,
    includesOrdered_convex ha hb hu hv hw hau.2.2 haw.2.2 huv hvw⟩

end

/-! ## By two places -/

/-- The places that the bounds of an interval of numbers are moved to have the integer between them. -/
def Surrounds (p q k : ℤ) : Prop := min p q ≤ inUnits k ∧ inUnits k ≤ max p q

instance (p q k : ℤ) : Decidable (Surrounds p q k) := by
  unfold Surrounds
  infer_instance

theorem surrounds_comm (p q k : ℤ) : Surrounds p q k ↔ Surrounds q p k := by
  rw [Surrounds, Surrounds, min_comm, max_comm]

theorem le_of_holds {k l : ℤ} (h : Value.Holds .atMost (.whole k) (.whole l)) : k ≤ l := by
  have hle : (Value.whole k).le? (.whole l) = some true := h
  rw [le_whole] at hle
  exact of_decide_eq_true (Option.some.inj hle)

theorem Surrounds.convex {p q k l m : ℤ} (hk : Surrounds p q k) (hm : Surrounds p q m) (hkl : k ≤ l)
    (hlm : l ≤ m) : Surrounds p q l :=
  ⟨hk.1.trans (inUnits_le.2 hkl), (inUnits_le.2 hlm).trans hm.2⟩

theorem isBetween_whole {m n : Number} {p q : ℤ} (hp : m.units? = some p) (hq : n.units? = some q) (k : ℤ) :
    (Number.whole k).isBetween m n = decide (Surrounds p q k) := by
  have hk : (Number.whole k).units? = some (inUnits k) := rfl
  rw [Bool.eq_iff_iff, Number.isBetween_of_units hk hp hq, decide_eq_true_iff, Surrounds, min_le_iff,
    le_max_iff]

/-- An interval of integers below `2 ^ 53` has those integers in it that lie between two places. The interval
written backwards has the same two places. -/
theorem exists_surrounds {a b : ℤ} (i j : Bool) (ha : a.natAbs < 2 ^ 53) (hb : b.natAbs < 2 ^ 53) :
    ∃ p q, ∀ k : ℤ,
      includes ⟨.whole a, .whole b, i, j⟩ (.whole k) = .ok (some (decide (Surrounds p q k))) ∧
      includes ⟨.whole b, .whole a, j, i⟩ (.whole k) = .ok (some (decide (Surrounds p q k))) := by
  have hsign := sign_cases a b
  have hmirror : (a - b).sign = -(b - a).sign := by rw [← Int.sign_neg, neg_sub]
  obtain ⟨m, p, hm, hp⟩ := Number.exists_place i hsign ha
  have hsign' : -(b - a).sign = 0 ∨ -(b - a).sign = 1 ∨ -(b - a).sign = -1 := by omega
  obtain ⟨n, q, hn, hq⟩ := Number.exists_place j hsign' hb
  refine ⟨p, q, fun k => ?_⟩
  -- written backwards the bounds are moved the same ways
  have hm' : (Number.whole a).movedBound i (-(a - b).sign) = .ok m := by rwa [hmirror, neg_neg]
  have hn' : (Number.whole b).movedBound j (a - b).sign = .ok n := by rwa [hmirror]
  rw [includes_whole, includes_whole, includesNumber_of_moved hm hn, includesNumber_of_moved hn' hm',
    isBetween_whole hp hq, isBetween_whole hq hp, decide_eq_decide.2 (surrounds_comm q p k)]
  exact ⟨rfl, rfl⟩

/-! ## Mirrored and convex -/

/-- A bound for which no test fails: data without fractions, if it is an integer then one below `2 ^ 53`. -/
structure Testable (bound : Value) : Prop where
  floatFree : bound.FloatFree
  small : ∀ i : ℤ, bound = .whole i → i.natAbs < 2 ^ 53

section

variable {a b u v w : Value} {i j : Bool}

/-- Two testable bounds are integers below `2 ^ 53`, or the order tells all values. -/
theorem Testable.cases (ha : Testable a) (hb : Testable b) :
    (∃ m n : ℤ, a = .whole m ∧ b = .whole n ∧ m.natAbs < 2 ^ 53 ∧ n.natAbs < 2 ^ 53) ∨
    ∀ v, includes ⟨a, b, i, j⟩ v = .ok (includesKind ⟨a, b, i, j⟩ v) ∧
      includes ⟨b, a, j, i⟩ v = .ok (includesKind ⟨b, a, j, i⟩ v) := by
  -- only two numbers are tested as numbers, and without fractions they are integers
  by_cases hnumbers : ∃ m n, a = .number m ∧ b = .number n
  · obtain ⟨_, _, rfl, rfl⟩ := hnumbers
    obtain ⟨m, rfl⟩ := exists_whole ha.floatFree
    obtain ⟨n, rfl⟩ := exists_whole hb.floatFree
    exact .inl ⟨m, n, rfl, rfl, ha.small m rfl, hb.small n rfl⟩
  · refine .inr fun v => ⟨?_, ?_⟩
    · exact (includes_eq a b i j v).resolve_left fun ⟨m, n, _, hm, hn, _⟩ => hnumbers ⟨m, n, hm, hn⟩
    · exact (includes_eq b a j i v).resolve_left fun ⟨n, m, _, hn, hm, _⟩ => hnumbers ⟨m, n, hm, hn⟩

/-- Data of the kind of an integer is an integer. -/
theorem exists_whole_of_kind {m : ℤ} (hv : v.FloatFree) (h : (Value.whole m).sameKind v = true) :
    ∃ k, v = .whole k := by
  rw [Value.sameKind, beq_iff_eq] at h
  obtain ⟨n, rfl⟩ := Value.number_of_kind h.symm
  obtain ⟨k, rfl⟩ := exists_whole hv
  exact ⟨k, rfl⟩

/-- Between integers only integers are told. -/
theorem includes_of_not_whole {m n : ℤ} (hv : v.FloatFree) (h : ¬∃ k, v = .whole k) :
    includes ⟨.whole m, .whole n, i, j⟩ v = .ok none := by
  have hkind : (Value.whole m).sameKind v = false :=
    Bool.eq_false_iff.2 fun hsame => h (exists_whole_of_kind hv hsame)
  obtain ⟨_, _, k, -, -, rfl⟩ | heq := includes_eq (.whole m) (.whole n) i j v
  · cases hkind
  · rw [heq, includesKind]
    dsimp only
    rw [hkind, Bool.and_false, if_neg Bool.false_ne_true]

theorem whole_of_includes {m n : ℤ} (hv : v.FloatFree)
    (h : includes ⟨.whole m, .whole n, i, j⟩ v = .ok (some true)) : ∃ k, v = .whole k := by
  by_contra hno
  cases (includes_of_not_whole hv hno).symm.trans h

/-- An interval written backwards tells the same, and never fails. -/
theorem includes_mirror (ha : Testable a) (hb : Testable b) (hv : v.FloatFree) :
    ∃ outcome, includes ⟨a, b, i, j⟩ v = .ok outcome ∧ includes ⟨b, a, j, i⟩ v = .ok outcome := by
  obtain ⟨m, n, rfl, rfl, hm, hn⟩ | hkind := ha.cases hb (i := i) (j := j)
  · obtain ⟨p, q, hsurrounds⟩ := exists_surrounds i j hm hn
    by_cases hwhole : ∃ k, v = .whole k
    · obtain ⟨k, rfl⟩ := hwhole
      exact ⟨_, hsurrounds k⟩
    · exact ⟨none, includes_of_not_whole hv hwhole, includes_of_not_whole hv hwhole⟩
  · refine ⟨_, (hkind v).1, ?_⟩
    rw [(hkind v).2, includesKind_mirror ha.floatFree hb.floatFree hv]

/-- What is between two values of an interval is in it. -/
theorem includes_convex (ha : Testable a) (hb : Testable b) (hu : u.FloatFree) (hv : v.FloatFree)
    (hw : w.FloatFree) (hau : includes ⟨a, b, i, j⟩ u = .ok (some true))
    (haw : includes ⟨a, b, i, j⟩ w = .ok (some true)) (huv : Value.Holds .atMost u v)
    (hvw : Value.Holds .atMost v w) : includes ⟨a, b, i, j⟩ v = .ok (some true) := by
  obtain ⟨m, n, rfl, rfl, hm, hn⟩ | hkind := ha.cases hb (i := i) (j := j)
  · obtain ⟨p, q, hsurrounds⟩ := exists_surrounds i j hm hn
    obtain ⟨k, rfl⟩ := whole_of_includes hu hau
    obtain ⟨l, rfl⟩ := exists_whole_of_kind hv (Value.standing_of_atMost hu hv huv).1
    obtain ⟨o, rfl⟩ := whole_of_includes hw haw
    have hin : ∀ x, includes ⟨.whole m, .whole n, i, j⟩ (.whole x) = .ok (some true) ↔ Surrounds p q x := by
      intro x
      rw [(hsurrounds x).1, Except.ok.injEq, Option.some.injEq, decide_eq_true_iff]
    rw [hin] at hau haw ⊢
    exact hau.convex haw (le_of_holds huv) (le_of_holds hvw)
  · rw [(hkind u).1, Except.ok.injEq] at hau
    rw [(hkind w).1, Except.ok.injEq] at haw
    rw [(hkind v).1, includesKind_convex ha.floatFree hb.floatFree hu hv hw hau haw huv hvw]

/-- **Intervals mirror and are convex.** Between bounds without fractions, if integers then below `2 ^ 53`, an
interval always tells whether data without fractions is in it, and tells the same if it is written backwards,
each bracket staying at its bound. And with two values everything between them is in the interval. -/
theorem mirrored_and_convex (ha : Testable a) (hb : Testable b) (i j : Bool) :
    (∀ v : Value, v.FloatFree → ∃ outcome,
      includes ⟨a, b, i, j⟩ v = .ok outcome ∧ includes ⟨b, a, j, i⟩ v = .ok outcome) ∧
    ∀ u v w : Value, u.FloatFree → v.FloatFree → w.FloatFree →
      includes ⟨a, b, i, j⟩ u = .ok (some true) → includes ⟨a, b, i, j⟩ w = .ok (some true) →
      Value.compare? .atMost u v = some true → Value.compare? .atMost v w = some true →
      includes ⟨a, b, i, j⟩ v = .ok (some true) :=
  ⟨fun _ hv => includes_mirror ha hb hv,
    fun _ _ _ hu hv hw hau haw huv hvw => includes_convex ha hb hu hv hw hau haw huv hvw⟩

/-- Downwards, `(5..1]` has `1` and `4` in it and therefore `2`. `[[true]..[1])` is from a list to an equal one:
neither it nor `([1]..[true]]` has the list in it. -/
theorem mirrored_and_convex_descending :
    includes ⟨.whole 5, .whole 1, false, true⟩ (.whole 2) = .ok (some true) ∧
      ∃ outcome,
        includes ⟨.list [.boolean true], .list [.whole 1], true, false⟩ (.list [.whole 1]) = .ok outcome ∧
        includes ⟨.list [.whole 1], .list [.boolean true], false, true⟩ (.list [.whole 1]) = .ok outcome := by
  have hwhole : ∀ k : ℤ, (Value.whole k).FloatFree := fun k => .point (.whole k)
  have hsmall : ∀ k : ℤ, k.natAbs < 2 ^ 53 → Testable (.whole k) := fun k hk =>
    ⟨hwhole k, fun i hi => by cases hi; exact hk⟩
  have hlist : ∀ {v : Value} {p : Point}, v.At p → (Value.list [v]).FloatFree := fun hv =>
    .list fun u hu => List.mem_singleton.1 hu ▸ .point hv
  constructor
  · exact (mirrored_and_convex (hsmall 5 (by decide)) (hsmall 1 (by decide)) false true).2 _ _ _ (hwhole 1)
      (hwhole 2) (hwhole 4) (by decide +kernel) (by decide +kernel) rfl rfl
  · exact (mirrored_and_convex ⟨hlist (.boolean true), nofun⟩ ⟨hlist (.whole 1), nofun⟩ true false).1 _
      (hlist (.whole 1))

end

end Interval

end Criterion

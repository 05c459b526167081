import Criterion.Proofs.Intervals
import Criterion.Proofs.Ordering
import Criterion.Proofs.Sites

/-!
# Between two values

`x between a and b` looks for the smaller and the larger of its bounds first and stops at the first comparison
that fails. A closed interval orders its bounds as well and makes both comparisons, and goes by numbers if its
bounds are numbers. The two ways agree: a value below the smaller bound is below the larger one, so that the
comparison left out has an answer, and of equal bounds either is as good as the other.

* `Value.enclosed?`: whether a value lies from one bound to the other, both comparisons made.
* `Value.between_of_ordered`, `Interval.includesOrdered_of_ordered`: both ways make these comparisons, with the
  bounds in order.
* `Value.between_swap`: the bounds may be swapped.
* `Interval.includes_closed`: **a closed interval tells what `between` tells.**
* `between_closed_interval`: **so do the expressions, with and without reports of the matched value.**
-/

namespace Criterion

/-! ## One pair of comparisons -/

namespace Value

variable {a b v : Value}

/-- Whether a value lies from `low` to `high`; none if it cannot be compared with one of them. -/
def enclosed? (low high v : Value) : Option Bool := do
  let above ← low.le? v
  let below ← v.le? high
  return above && below

theorem le_of_standing {o : Ordering} (h : a.standing b = .ordered o) : a.le? b = some (o != .gt) := by
  rw [le?, h]

theorem lt_of_standing {o : Ordering} (h : a.standing b = .ordered o) : a.lt? b = some (o == .lt) := by
  rw [lt?, h]

theorem gt_of_standing {o : Ordering} (h : a.standing b = .ordered o) : a.gt? b = some (o == .gt) := by
  rw [gt?, h]

/-- Equal values are above the same values. -/
theorem le_congr (ha : a.FloatFree) (hb : b.FloatFree) (hv : v.FloatFree) (hab : a.eqv b = true) :
    a.le? v = b.le? v := by
  rw [le?, le?, standing_congr ha hb hv hab]

/-- Equal values are below the same values. -/
theorem le_congr_right (ha : a.FloatFree) (hb : b.FloatFree) (hv : v.FloatFree)
    (hab : a.eqv b = true) : v.le? a = v.le? b := by
  rw [le?, le?, standing_congr_right hv ha hb hab]

/-- What is not above the lower bound is below the upper one. -/
theorem le_of_below (ha : a.FloatFree) (hb : b.FloatFree) (hv : v.FloatFree)
    (hab : a.standing b = .ordered .lt ∨ a.eqv b = true) (h : a.le? v = some false) :
    v.le? b = some true := by
  have hva : v.standing a = .ordered .lt := by
    obtain hnone | ⟨o, ho, -⟩ := standing_cases ha hv
    · rw [le?, hnone] at h
      cases h
    · rw [le_of_standing ho] at h
      rw [standing_swap ha hv, ho]
      cases o <;> cases h
      rfl
  have hvb : v.standing b = .ordered .lt := by
    obtain hlt | heqv := hab
    · exact standing_trans hv ha hb hva hlt
    · rw [← standing_congr_right hv ha hb heqv, hva]
  exact le_of_standing hvb

/-- The comparison that is left out below the lower bound does not count. -/
theorem enclosed_of_chain (ha : a.FloatFree) (hb : b.FloatFree) (hv : v.FloatFree)
    (hab : a.standing b = .ordered .lt ∨ a.eqv b = true) :
    (do if ← a.le? v then v.le? b else return false) = enclosed? a b v := by
  rw [enclosed?]
  cases habove : a.le? v with
  | none => rfl
  | some above =>
    cases above with
    | false =>
      rw [le_of_below ha hb hv hab habove]
      rfl
    | true =>
      rw [Option.bind_eq_bind, Option.bind_some, if_pos rfl]
      cases v.le? b <;> rfl

/-- Equal bounds enclose the same values either way. -/
theorem enclosed_swap (ha : a.FloatFree) (hb : b.FloatFree) (hv : v.FloatFree)
    (hab : a.eqv b = true) : enclosed? a b v = enclosed? b a v := by
  rw [enclosed?, enclosed?, le_congr ha hb hv hab, le_congr_right ha hb hv hab]

/-! ## The bounds in order -/

/-- The two bounds, the smaller one first. -/
def bounds (a b : Value) : Ordering → Value × Value
  | .lt => (a, b)
  | .eq => (a, b)
  | .gt => (b, a)

/-- Between two bounds of one kind that have an order lies what the smaller and the larger one enclose. -/
theorem between_of_ordered {o : Ordering} (ha : a.FloatFree) (hb : b.FloatFree) (hv : v.FloatFree)
    (hnull : a.kind ≠ .null) (hab : a.sameKind b = true) (hav : a.sameKind v = true)
    (ho : a.standing b = .ordered o) (heq : o = .eq ↔ a.eqv b = true) :
    v.between? a b = enclosed? (bounds a b o).1 (bounds a b o).2 v := by
  have hswap : b.standing a = .ordered o.swap := by rw [standing_swap ha hb, ho]; rfl
  have hguard : ¬(a.kind = .null ∨ (!a.sameKind b) = true ∨ (!a.sameKind v) = true) := by
    rw [hab, hav]
    exact fun h => h.elim hnull (fun h => h.elim nofun nofun)
  rw [between?, if_neg hguard, least?, greatest?, lt_of_standing hswap, gt_of_standing hswap]
  cases o with
  | lt => exact enclosed_of_chain ha hb hv (.inl ho)
  | eq =>
    -- the larger of two equal bounds is the first one
    have hchain : (do if ← a.le? v then v.le? a else return false) = enclosed? a b v := by
      rw [le_congr_right ha hb hv (heq.1 rfl)]
      exact enclosed_of_chain ha hb hv (.inr (heq.1 rfl))
    exact hchain
  | gt => exact enclosed_of_chain hb ha hv (.inl hswap)

theorem between_of_null (h : a = .null ∨ b = .null ∨ v = .null) : v.between? a b = none := by
  rw [between?, if_pos]
  by_cases ha : a.kind = .null
  · exact .inl ha
  · have hnull : (a.kind == Kind.null) = false := beq_eq_false_iff_ne.2 ha
    obtain rfl | rfl | rfl := h
    · exact absurd rfl ha
    · exact .inr (.inl (by rw [sameKind, kind, hnull]; rfl))
    · exact .inr (.inr (by rw [sameKind, kind, hnull]; rfl))

theorem between_of_incomparable (ha : a.FloatFree) (hb : b.FloatFree)
    (h : a.standing b = .incomparable) : v.between? a b = none := by
  have hlt : b.lt? a = none := by rw [lt?, standing_swap ha hb, h]; rfl
  rw [between?, least?, hlt]
  exact ite_self none

/-- The bounds may come in either order. -/
theorem between_swap (ha : a.FloatFree) (hb : b.FloatFree) (hv : v.FloatFree) :
    v.between? a b = v.between? b a := by
  have hguard : (a.kind = .null ∨ (!a.sameKind b) = true ∨ (!a.sameKind v) = true) ↔
      (b.kind = .null ∨ (!b.sameKind a) = true ∨ (!b.sameKind v) = true) := by
    simp only [sameKind, Bool.not_eq_true', beq_eq_false_iff_ne]
    grind
  by_cases h : a.kind = .null ∨ (!a.sameKind b) = true ∨ (!a.sameKind v) = true
  · rw [between?, between?, if_pos h, if_pos (hguard.1 h)]
  · have h' := mt hguard.2 h
    simp only [not_or, Bool.not_eq_true, Bool.not_eq_false'] at h h'
    obtain hnone | ⟨o, ho, heq⟩ := standing_cases ha hb
    · have hnone' : b.standing a = .incomparable := by rw [standing_swap ha hb, hnone]; rfl
      rw [between_of_incomparable ha hb hnone, between_of_incomparable hb ha hnone']
    · have ho' : b.standing a = .ordered o.swap := by rw [standing_swap ha hb, ho]; rfl
      have heq' : o.swap = .eq ↔ b.eqv a = true := by rw [Ordering.swap_eq_eq, heq, eqv_symm ha hb]
      rw [between_of_ordered ha hb hv h.1 h.2.1 h.2.2 ho heq,
        between_of_ordered hb ha hv h'.1 h'.2.1 h'.2.2 ho' heq']
      cases o with
      | lt => rfl
      | eq => exact enclosed_swap ha hb hv (heq.1 rfl)
      | gt => rfl

end Value

/-! ## Closed intervals -/

namespace Interval

variable {a b v : Value}

/-- Between two bounds that have an order lies what the smaller and the larger one enclose. -/
theorem includesOrdered_of_ordered {o : Ordering} (ha : a.FloatFree) (hb : b.FloatFree)
    (ho : a.standing b = .ordered o) :
    includesOrdered ⟨a, b, true, true⟩ v =
      Value.enclosed? (Value.bounds a b o).1 (Value.bounds a b o).2 v := by
  have hswap : b.standing a = .ordered o.swap := by rw [Value.standing_swap ha hb, ho]; rfl
  rw [includesOrdered, Value.lt_of_standing hswap]
  cases o <;> rfl

theorem includesOrdered_of_incomparable (ha : a.FloatFree) (hb : b.FloatFree)
    (h : a.standing b = .incomparable) : includesOrdered ⟨a, b, true, true⟩ v = none := by
  have hlt : b.lt? a = none := by rw [Value.lt?, Value.standing_swap ha hb, h]; rfl
  rw [includesOrdered, hlt]
  rfl

/-- By the order of values a closed interval tells what `between` tells. -/
theorem includesOrdered_closed (ha : a.FloatFree) (hb : b.FloatFree) (hv : v.FloatFree)
    (hnull : a.kind ≠ .null) :
    (if a.sameKind b && a.sameKind v then includesOrdered ⟨a, b, true, true⟩ v else none) =
      v.between? a b := by
  by_cases h : a.sameKind b = true ∧ a.sameKind v = true
  · rw [if_pos (by rw [h.1, h.2]; rfl)]
    obtain hnone | ⟨o, ho, heq⟩ := Value.standing_cases ha hb
    · rw [includesOrdered_of_incomparable ha hb hnone, Value.between_of_incomparable ha hb hnone]
    · rw [includesOrdered_of_ordered ha hb ho,
        Value.between_of_ordered ha hb hv hnull h.1 h.2 ho heq]
  · rw [if_neg (by rwa [Bool.and_eq_true]), Value.between?, if_pos]
    right
    simpa only [Bool.not_eq_true', not_and_or, Bool.not_eq_true] using h

theorem exists_whole {n : Number} (h : (Value.number n).FloatFree) : ∃ i, n = .whole i := by
  cases h with
  | point h => cases h with
    | whole i => exact ⟨i, rfl⟩

/-- Between integers the numeric test of a closed interval tells what the order of values tells. -/
theorem includes_closed_whole (i j k : ℤ) :
    includes ⟨.whole i, .whole j, true, true⟩ (.whole k) =
      .ok ((Value.whole k).between? (.whole i) (.whole j)) := by
  have hfree : ∀ n : ℤ, (Value.whole n).FloatFree := fun n => .point (.whole n)
  have hsame : (if (Value.whole i).sameKind (.whole j) && (Value.whole i).sameKind (.whole k) then
      includesOrdered ⟨.whole i, .whole j, true, true⟩ (.whole k) else none) =
        (Value.whole k).between? (.whole i) (.whole j) :=
    includesOrdered_closed (hfree i) (hfree j) (hfree k) nofun
  have hwithin : Within i j true true k ∨ i = j ∧ k = i ↔ Within i j true true k := by
    refine ⟨fun h => h.elim id ?_, .inl⟩
    rintro ⟨rfl, rfl⟩
    exact ⟨min_le_left _ _, le_max_left _ _, fun _ => rfl, fun _ => rfl⟩
  -- neither bound is moved
  have hbounds : ∀ n : ℤ, true = false → n.natAbs < 2 ^ 34 := fun n h => nomatch h
  have hnumber := includesNumber_whole (hbounds i) (hbounds j) k
  have hkind : ((Value.whole i).sameKind (.whole j) && (Value.whole i).sameKind (.whole k)) = true := rfl
  rw [← hsame, if_pos hkind, includes_whole, hnumber, includesOrdered_whole, decide_eq_decide.2 hwithin]
  rfl

/-- **A closed interval tells what `between` tells**, for data without fractions and bounds in either order.
It never fails. -/
theorem includes_closed (ha : a.FloatFree) (hb : b.FloatFree) (hv : v.FloatFree) :
    (ofBrackets "[" a b "]").includes v = .ok (v.between? a b) := by
  change includes ⟨a, b, true, true⟩ v = .ok (v.between? a b)
  rw [includes.eq_def]
  dsimp only
  split
  case h_1 => rw [Value.between_of_null (.inl rfl)]
  case h_2 => rw [Value.between_of_null (.inr (.inl rfl))]
  case h_3 => rw [Value.between_of_null (.inr (.inr rfl))]
  case h_4 =>
    rename_i m n k
    obtain ⟨i, rfl⟩ := exists_whole ha
    obtain ⟨j, rfl⟩ := exists_whole hb
    obtain ⟨l, rfl⟩ := exists_whole hv
    exact includes_closed_whole i j l
  case h_5 hnull _ _ _ =>
    rw [includesOrdered_closed ha hb hv (mt Value.null_of_kind hnull)]

end Interval

/-! ## The expressions -/

theorem Value.isTrue_iff (v : Value) : v.isTrue = true ↔ v ≠ .null ∧ v ≠ .boolean false := by
  cases v with
  | null => exact iff_of_false nofun fun h => h.1 rfl
  | boolean b =>
    cases b with
    | false => exact iff_of_false nofun fun h => h.2 rfl
    | true => exact iff_of_true rfl ⟨nofun, nofun⟩
  | _ => exact iff_of_true rfl ⟨nofun, nofun⟩

section

variable {reports : Bool} {v : Value} {outcome : Option Bool}

theorem answer_null_iff (h : outcome = some true → v ≠ .null) :
    answer reports v outcome = .null ↔ outcome = none := by
  obtain _ | _ | _ := outcome
  · exact iff_of_true rfl rfl
  · exact iff_of_false nofun nofun
  · refine iff_of_false ?_ nofun
    cases reports with
    | false => exact nofun
    | true => exact h rfl

/-- Reported as itself, a value counts as untrue only if it is false. -/
theorem answer_isTrue_iff (h : outcome = some true → v ≠ .null) :
    (answer reports v outcome).isTrue = true ↔
      outcome = some true ∧ (reports = true → v ≠ .boolean false) := by
  obtain _ | _ | _ := outcome
  · exact iff_of_false nofun (fun h => nomatch h.1)
  · exact iff_of_false nofun (fun h => nomatch h.1)
  · cases reports with
    | false => exact iff_of_true rfl ⟨rfl, nofun⟩
    | true =>
      have hreported : (answer true v (some true)).isTrue = true ↔ v ≠ .null ∧ v ≠ .boolean false :=
        v.isTrue_iff
      rw [hreported]
      exact ⟨fun hv => ⟨rfl, fun _ => hv.2⟩, fun hv => ⟨h rfl, hv.2 rfl⟩⟩

end

section

variable {registry : Fields} {scope : Scope} {e low high : Expr} {x a b : Value}

/-- What `between` answers, by the values of its parts. -/
theorem eval_between (he : (e.eval registry scope).outcome = .ok x)
    (hlow : (low.eval registry scope).outcome = .ok a)
    (hhigh : (high.eval registry scope).outcome = .ok b) :
    ((Expr.between e low high).eval registry scope).outcome =
      .ok (answer scope.reports x (x.between? a b)) := by
  rw [Expr.eval, Run.bind_of_ok he, Run.bind_of_ok hlow, Run.bind_of_ok hhigh, Run.pure_outcome]

/-- The test that an interval with these brackets is. -/
theorem eval_interval (site : ℕ) (opening closing : String)
    (hlow : (low.eval registry scope).outcome = .ok a)
    (hhigh : (high.eval registry scope).outcome = .ok b) :
    ((Expr.interval site (opening == "[") low high (closing == "]")).eval registry scope).outcome =
      .ok (.probe (.interval site (Interval.ofBrackets opening a b closing) scope.reports)) := by
  rw [Expr.eval, Run.bind_of_ok hlow, Run.bind_of_ok hhigh, Run.pure_outcome, Interval.ofBrackets]

/-- **`between` is the closed interval.** For data without fractions the interval always tells whether the value
is in it, and swapping the bounds does not change what it tells. `between` answers with just that, with and without
reports of the matched value, and so does the test that the interval is as an expression. The answer is null
exactly if the interval tells nothing. It is true exactly if the value is in the interval, except that the value
false is reported as itself. -/
theorem between_closed_interval (hx : x.FloatFree) (ha : a.FloatFree) (hb : b.FloatFree)
    (he : (e.eval registry scope).outcome = .ok x)
    (hlow : (low.eval registry scope).outcome = .ok a)
    (hhigh : (high.eval registry scope).outcome = .ok b) (site : ℕ) :
    ∃ outcome,
      (Interval.ofBrackets "[" a b "]").includes x = .ok outcome ∧
      (Interval.ofBrackets "[" b a "]").includes x = .ok outcome ∧
      ((Expr.between e low high).eval registry scope).outcome =
        .ok (answer scope.reports x outcome) ∧
      ((Expr.between e high low).eval registry scope).outcome =
        .ok (answer scope.reports x outcome) ∧
      (∃ probe : Probe Value,
        ((Expr.interval site true low high true).eval registry scope).outcome = .ok (.probe probe) ∧
        (probe.match x).outcome = .ok (answer scope.reports x outcome)) ∧
      (answer scope.reports x outcome = .null ↔ outcome = none) ∧
      ((answer scope.reports x outcome).isTrue = true ↔
        outcome = some true ∧ (scope.reports = true → x ≠ .boolean false)) := by
  have hincludes := Interval.includes_closed ha hb hx
  have hsome : x.between? a b = some true → x ≠ .null := by
    rintro h rfl
    rw [Value.between_of_null (.inr (.inr rfl))] at h
    cases h
  refine ⟨x.between? a b, hincludes, ?_, eval_between he hlow hhigh, ?_, ?_, answer_null_iff hsome,
    answer_isTrue_iff hsome⟩
  · rw [Value.between_swap ha hb hx]
    exact Interval.includes_closed hb ha hx
  · rw [Value.between_swap ha hb hx]
    exact eval_between he hhigh hlow
  · refine ⟨_, eval_interval site "[" "]" hlow hhigh, ?_⟩
    rw [Probe.match, hincludes]
    rfl

/-- `3 between 5 and 1` with reports of the matched value is `3`. -/
theorem between_reports_matched :
    ((Expr.between (.number (.whole 3)) (.number (.whole 5)) (.number (.whole 1))).eval []
      (.ofFields [(Scope.reportKey, .boolean true)])).outcome = .ok (.whole 3) := by
  have hfree : ∀ i : ℤ, (Value.whole i).FloatFree := fun i => .point (.whole i)
  have heval : ∀ i : ℤ, ((Expr.number (.whole i)).eval []
      (.ofFields [(Scope.reportKey, .boolean true)])).outcome = .ok (.whole i) := fun i => rfl
  have hinside : (Interval.ofBrackets "[" (.whole 5) (.whole 1) "]").includes (.whole 3) =
      .ok (some true) := by decide
  obtain ⟨outcome, hincludes, -, hbetween, -⟩ :=
    between_closed_interval (hfree 3) (hfree 5) (hfree 1) (heval 3) (heval 5) (heval 1) 0
  obtain rfl : some true = outcome := Except.ok.inj (hinside.symm.trans hincludes)
  exact hbetween

end

end Criterion

import Criterion.Memory.Sitting
import Criterion.Proofs.Items
import Criterion.Proofs.Truth

/-!
# Filters one after the other

Two filters by predicates keep the elements for which both are true, in either order, and so does one filter by
`p and q`. Each filter asks in scopes of its own, which are the same ones: an element is in the same scope in all
three. The second filter goes through a list where the first one may have gone through a single value.

* `Judges`: predicates that answer true, false or null for some elements, and `Judges.filter_outcome`: what they keep.
* `itemLayer_reports`: no element asks for reports unless it has a field of this name.
* `Judges.conjunction`: the verdicts of `p and q`.
* `filters_fuse`: **two filters, in either order, and the filter by `p and q` keep the same**, where values tell the
  answers of the predicates.
-/

namespace Criterion

/-- A predicate that answers true, false or null for each of some elements, in the scope of the element. -/
structure Judges (registry : Fields) (scope : Scope) (p : Expr) (items : List Value)
    (verdict : Value → Option Bool) : Prop where
  predicate : Tag.Predicate p.tag
  verdicts : ∀ item ∈ items,
    (p.eval registry (scope.extend item.itemLayer)).outcome = .ok (.ofBool? (verdict item))

/-- The elements for which a verdict is true. -/
def kept (verdict : Value → Option Bool) (items : List Value) : List Value :=
  items.filter fun item => verdict item = some true

/-- Whether two verdicts are true. -/
def bothTrue (pv qv : Value → Option Bool) (item : Value) : Option Bool :=
  some (decide (pv item = some true) && decide (qv item = some true))

/-- Only a field of an element asks for reports in its scope. -/
theorem itemLayer_reports {item : Value} {scope : Scope} (hscope : scope.get? Scope.reportKey = none)
    (hfield : ∀ fields : Fields, item = .context fields → Scope.reportKey ∉ fields.map (·.1)) :
    (scope.extend item.itemLayer).reports = false := by
  have hlayer : item.itemLayer.get? Scope.reportKey = none := by
    by_cases hcontext : ∃ fields, item = .context fields
    · obtain ⟨fields, rfl⟩ := hcontext
      have hpairs : Scope.reportKey ∉ (itemPairs fields).map (·.1) := by
        rw [itemPairs_keys, List.mem_cons, List.mem_map, not_or]
        refine ⟨by decide, ?_⟩
        rintro ⟨k, -, hk⟩
        exact dotted_ne (by simp) (by decide) hk
      rw [itemLayer_context, Fields.get_update_of_notMem _ (hfield fields rfl), Fields.get_ofPairs_eq_none hpairs]
    · rw [itemLayer_other fun fields hfields => hcontext ⟨fields, hfields⟩]
      rfl
  rw [Scope.reports, Scope.get, Scope.get_extend, hlayer, hscope]
  rfl

namespace Judges

variable {registry : Fields} {scope : Scope} {xs p q : Expr} {items : List Value} {pv qv : Value → Option Bool}

/-- A verdict on some elements is one on those of them that are kept. -/
theorem kept (hp : Judges registry scope p items pv) (verdict : Value → Option Bool) :
    Judges registry scope p (kept verdict items) pv :=
  ⟨hp.predicate, fun item hitem => hp.verdicts item (List.mem_of_mem_filter hitem)⟩

/-- A filter by a predicate keeps the elements for which its verdict is true, as a list. -/
theorem filter_outcome {v : Value} (hp : Judges registry scope p v.elements pv)
    (hxs : (xs.eval registry scope).outcome = .ok v) (hnull : v ≠ .null) :
    ((Expr.filter xs p).eval registry scope).outcome = .ok (.list (Criterion.kept pv v.elements)) := by
  have hanswers : Answers (p.eval registry) scope v.elements fun item => .ofBool? (pv item) :=
    fun item hitem => ⟨hp.verdicts item hitem, kind_ofBool _⟩
  rw [Expr.eval, Run.bind_of_ok hxs, select_predicate hp.predicate hnull,
    Run.bind_of_ok (selectWhere_outcome hanswers)]
  simp only [isTrue_ofBool]
  rfl

/-- Where nothing asks for reports, `p and q` is true if both are, and otherwise false. -/
theorem conjunction (hp : Judges registry scope p items pv) (hq : Judges registry scope q items qv)
    (hreports : ∀ item ∈ items, (scope.extend item.itemLayer).reports = false) :
    Judges registry scope (.conjunction p q) items (bothTrue pv qv) := by
  have hnonzero : ∀ o : Option Bool, (Value.ofBool? o).isNonzero = decide (o = some true) := by
    rintro (_ | _ | _) <;> rfl
  refine ⟨predicate_test, fun item hitem => ?_⟩
  rw [conjunction_outcome (hreports item hitem) (hp.verdicts item hitem) (hq.verdicts item hitem),
    hnonzero, hnonzero]
  rfl

end Judges

/-- What one filter keeps of what another one keeps. -/
theorem kept_kept (pv qv : Value → Option Bool) (items : List Value) :
    kept qv (kept pv items) = kept (bothTrue pv qv) items := by
  unfold kept bothTrue
  rw [List.filter_filter]
  refine List.filter_congr fun item _ => ?_
  simp only [Option.some_inj, Bool.decide_eq_true, Bool.and_comm]

theorem bothTrue_comm (pv qv : Value → Option Bool) : bothTrue pv qv = bothTrue qv pv := by
  funext item
  unfold bothTrue
  rw [Bool.and_comm]

/-- **Filters fuse.** The target may be null, a list or a single value. Two predicates without the tag of a number, a
text or a boolean that answer true, false or null for each element, in a scope that does not ask for reports, can be
asked one after the other, in either order, or at once by `p and q`: the filters keep the elements for which both are
true. They are null exactly if the target is. -/
theorem filters_fuse (registry : Fields) (scope : Scope) (xs p q : Expr) (v : Value)
    (pv qv : Value → Option Bool) (hxs : (xs.eval registry scope).outcome = .ok v)
    (hkey : scope.get? Scope.reportKey = none)
    (hfields : ∀ fields : Fields, .context fields ∈ v.elements → Scope.reportKey ∉ fields.map (·.1))
    (hp : v ≠ .null → Judges registry scope p v.elements pv)
    (hq : v ≠ .null → Judges registry scope q v.elements qv) :
    ∃ w, ((Expr.filter (.filter xs p) q).eval registry scope).outcome = .ok w ∧
      ((Expr.filter (.filter xs q) p).eval registry scope).outcome = .ok w ∧
      ((Expr.filter xs (.conjunction p q)).eval registry scope).outcome = .ok w ∧
      (w = .null ↔ v = .null) ∧ (v ≠ .null → w = .list (kept (bothTrue pv qv) v.elements)) := by
  by_cases hnull : v = .null
  · subst hnull
    exact ⟨.null, filter_null q (filter_null p hxs), filter_null p (filter_null q hxs), filter_null _ hxs,
      Iff.rfl, fun h => absurd rfl h⟩
  · have hp := hp hnull
    have hq := hq hnull
    have hreports : ∀ item ∈ v.elements, (scope.extend item.itemLayer).reports = false :=
      fun item hitem => itemLayer_reports hkey fun fields hfields' => hfields fields (hfields' ▸ hitem)
    have hpq := (hq.kept pv).filter_outcome (hp.filter_outcome hxs hnull) nofun
    have hqp := (hp.kept qv).filter_outcome (hq.filter_outcome hxs hnull) nofun
    have hboth := (hp.conjunction hq hreports).filter_outcome hxs hnull
    refine ⟨_, hpq.trans ?_, hqp.trans ?_, hboth, iff_of_false nofun hnull, fun _ => rfl⟩
    · exact congrArg (Except.ok ∘ Value.list) (kept_kept pv qv v.elements)
    · exact congrArg (Except.ok ∘ Value.list) ((kept_kept qv pv v.elements).trans (by rw [bothTrue_comm]))

/-- `[null, 2][item > 1][item < 3]`, in both orders, and `[null, 2][item > 1 and item < 3]`. -/
theorem filters_fuse_two :
    let target : Expr := .list [.null, .number (.whole 2)]
    let below : Expr := .relation .less (.name "item") (.number (.whole 3))
    let result := .ok (.list [.whole 2])
    ((Expr.filter (.filter target .itemAboveOne) below).eval standardRegistry (.ofFields [])).outcome = result ∧
      ((Expr.filter (.filter target below) .itemAboveOne).eval standardRegistry (.ofFields [])).outcome = result ∧
      ((Expr.filter target (.conjunction .itemAboveOne below)).eval standardRegistry (.ofFields [])).outcome =
        result := by
  intro target below result
  have hxs : (target.eval standardRegistry (.ofFields [])).outcome = .ok (.list [.null, .whole 2]) := by rfl
  have habove : Judges standardRegistry (.ofFields []) .itemAboveOne [.null, .whole 2] (·.gt? (.whole 1)) := by
    refine ⟨⟨nofun, nofun, nofun⟩, List.forall_mem_cons.2 ⟨by rfl, List.forall_mem_singleton.2 (by rfl)⟩⟩
  have hbelow : Judges standardRegistry (.ofFields []) below [.null, .whole 2] (·.lt? (.whole 3)) := by
    refine ⟨⟨nofun, nofun, nofun⟩, List.forall_mem_cons.2 ⟨by rfl, List.forall_mem_singleton.2 (by rfl)⟩⟩
  have hfields : ∀ fields : Fields, .context fields ∈ (Value.list [.null, .whole 2]).elements →
      Scope.reportKey ∉ fields.map (·.1) := by
    rintro fields (_ | ⟨_, _ | ⟨_, ⟨⟩⟩⟩)
  obtain ⟨w, hpq, hqp, hboth, -, hw⟩ := filters_fuse standardRegistry (.ofFields []) target .itemAboveOne below
    _ _ _ hxs (by rfl) hfields (fun _ => habove) fun _ => hbelow
  obtain rfl : w = .list [.whole 2] := hw nofun
  exact ⟨hpq, hqp, hboth⟩

/-- A predicate that appends each element to a list, and one that asks for more than two elements in it. Asked at once
they keep the last element only, and one after the other all elements. -/
theorem appending_predicate_tells_filters_apart :
    let context : Fields := [("xs", .list [.whole 1, .whole 2, .whole 3]), ("l", .list [])]
    let answer (source : String) := (respond .standard source context).outcome
    ((answer "xs[[l].append[1](item) = null and count(l) > 2]").toOption.any
        (·.eqv (.list [.whole 3]))) = true ∧
      ((answer "xs[[l].append[1](item) = null][count(l) > 2]").toOption.any
        (·.eqv (.list [.whole 1, .whole 2, .whole 3]))) = true := by
  decide +kernel

end Criterion

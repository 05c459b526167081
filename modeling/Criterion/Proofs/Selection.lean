import Criterion.Proofs.Runs
import Criterion.Session

/-!
# What a filter keeps

A filter decides by the tag of its condition, before it looks at any element, how it selects. A condition
without the tag of a number, a text or a boolean is a predicate: it is evaluated for each element in a
scope of its own. A condition with the tag of a boolean is evaluated once, in the scope around the filter,
and keeps all elements or none. Only fixed values have such tags, but for one form of expression: a choice
between two booleans has the tag of a boolean whatever it asks.

* `selectWhere_outcome`: the elements that a predicate keeps are those for which its answer is true.
* `filter_predicate`: so does a filter whose condition is a predicate.
* `filter_boolean`: a filter whose condition has the tag of a boolean keeps all elements or none.
* `filter_trueIf`, `filter_trueElseFalse`: what filters by a choice keep.
* `fixed_of_tag`: without a choice, an expression with the tag of a boolean is the same in all scopes.
* `filter_by_choice`: **`xs[if p then true else false]` asks `p` once and outside of the elements**, so it
  keeps what `xs[p]` keeps only where `p` has the same answer for all of them; `xs[if p then true]` always
  keeps the same.
* `choice_of_booleans_asked_once`: a list on which the two differ.
-/

namespace Criterion

/-- What a predicate answers for the elements of a list, each in its own scope. No answer is a test. -/
def Answers (predicate : Scope → Eval Value) (scope : Scope) (items : List Value)
    (answers : Value → Value) : Prop :=
  ∀ item ∈ items, (predicate (scope.extend item.itemLayer)).outcome = .ok (answers item) ∧
    (answers item).kind ≠ .probe

/-- A tag by which a filter takes its condition for a predicate. -/
def Tag.Predicate (tag : Option Tag) : Prop :=
  tag ≠ some .number ∧ tag ≠ some .string ∧ tag ≠ some .boolean

section Selection

variable {registry : Fields} {scope : Scope} {items : List Value} {xs p : Expr}

/-- **A predicate keeps the elements for which its answer is true**, in their order. -/
theorem selectWhere_outcome {predicate : Scope → Eval Value} {answers : Value → Value}
    (h : Answers predicate scope items answers) :
    (selectWhere predicate scope items).outcome =
      .ok (items.filter fun item => (answers item).isTrue) := by
  induction items with
  | nil => rfl
  | cons item rest ih =>
    obtain ⟨⟨hitem, hprobe⟩, hrest⟩ := List.forall_mem_cons.1 h
    have hrest : (selectWhere predicate scope rest).outcome =
        .ok (rest.filter fun item => (answers item).isTrue) := ih hrest
    unfold selectWhere
    rw [Run.bind_of_ok hitem]
    -- an answer that is no test is its own verdict
    cases hanswer : answers item with
    | probe p => exact absurd (by rw [hanswer]; rfl) hprobe
    | _ =>
      simp only [pure_bind]
      rw [Run.bind_of_ok hrest, List.filter_cons, hanswer]
      rfl

/-- A filter of a list evaluates the list first. -/
theorem filter_outcome {condition : Expr}
    (hxs : (xs.eval registry scope).outcome = .ok (.list items)) :
    ((Expr.filter xs condition).eval registry scope).outcome =
      (select (.list items) condition.tag (condition.eval registry) scope).outcome := by
  rw [Expr.eval, Run.bind_of_ok hxs]

/-- A filter of null is null, whatever its condition. -/
theorem filter_null (condition : Expr) (hxs : (xs.eval registry scope).outcome = .ok .null) :
    ((Expr.filter xs condition).eval registry scope).outcome = .ok .null := by
  rw [Expr.eval, Run.bind_of_ok hxs]
  rfl

/-- A filter of what is not null asks a predicate for each element. -/
theorem select_predicate {target : Value} {tag : Option Tag} (htag : Tag.Predicate tag)
    (hnull : target ≠ .null) (condition : Scope → Eval Value) (scope : Scope) :
    select target tag condition scope =
      (do return .list (← selectWhere condition scope target.elements)) := by
  obtain ⟨hnumber, hstring, hboolean⟩ := htag
  unfold select
  cases target with
  | null => exact absurd rfl hnull
  | _ =>
    cases tag with
    | none => rfl
    | some t =>
      cases t with
      | number => exact absurd rfl hnumber
      | string => exact absurd rfl hstring
      | boolean => exact absurd rfl hboolean
      | test => rfl
      | any => rfl

/-- A filter whose condition is a predicate keeps the elements for which it is true. -/
theorem filter_predicate {answers : Value → Value}
    (hxs : (xs.eval registry scope).outcome = .ok (.list items)) (htag : Tag.Predicate p.tag)
    (hp : Answers (p.eval registry) scope items answers) :
    ((Expr.filter xs p).eval registry scope).outcome =
      .ok (.list (items.filter fun item => (answers item).isTrue)) := by
  have hnull : Value.list items ≠ .null := nofun
  have hall : (Value.list items).elements = items := rfl
  rw [filter_outcome hxs, select_predicate htag hnull, hall, Run.bind_of_ok (selectWhere_outcome hp)]
  rfl

/-- A filter whose condition has the tag of a boolean asks it once, in the scope around the filter. -/
theorem filter_boolean {condition : Expr}
    (hxs : (xs.eval registry scope).outcome = .ok (.list items))
    (htag : condition.tag = some .boolean) :
    ((Expr.filter xs condition).eval registry scope).outcome =
      (condition.eval registry scope).outcome.map fun v =>
        .list (if v.isNonzero then items else []) := by
  rw [filter_outcome hxs, htag]
  unfold select
  rw [Run.bind_outcome]
  cases (condition.eval registry scope).outcome with
  | error f => rfl
  | ok v =>
    by_cases hv : v.isNonzero = true
    · simp only [bind, Except.bind, Except.map, if_pos hv]
      rfl
    · simp only [bind, Except.bind, Except.map, if_neg hv]
      rfl

/-! ## Tags of fixed values -/

/-- Whether a choice is among the operands that give an expression its tag. -/
def Expr.chooses : Expr → Bool
  | .unary _ a => a.chooses
  | .arithmetic _ a b => a.chooses || b.chooses
  | .choose .. => true
  | _ => false

/-- The tag of two operands is that of a number, a text or a boolean only if both have it. -/
theorem join_not_predicate {a b : Option Tag} (h : ¬ Tag.Predicate (some (Tag.join a b))) :
    ¬ Tag.Predicate a ∧ ¬ Tag.Predicate b := by
  have hany : Tag.Predicate (some .any) := ⟨nofun, nofun, nofun⟩
  cases a with
  | none => exact absurd hany h
  | some t =>
    unfold Tag.join at h
    dsimp only at h
    by_cases hb : b = some t
    · rw [if_pos hb] at h
      exact ⟨h, hb ▸ h⟩
    · rw [if_neg hb] at h
      exact absurd hany h

theorem predicate_none : Tag.Predicate none := by
  unfold Tag.Predicate
  decide

theorem predicate_test : Tag.Predicate (some .test) := by
  unfold Tag.Predicate
  decide

/-- **Without a choice, only a fixed value has the tag of a number, a text or a boolean**: it is the same
in all scopes, so it does not matter that a filter asks it once. -/
theorem fixed_of_tag (registry : Fields) {e : Expr} (htag : ¬ Tag.Predicate e.tag)
    (hchooses : e.chooses = false) : ∃ run, ∀ scope, e.eval registry scope = run := by
  induction e using Expr.chooses.induct with
  | case1 op a ih =>
    obtain ⟨run, hrun⟩ := ih htag hchooses
    exact ⟨_, fun scope => by rw [Expr.eval, hrun]⟩
  | case2 op a b iha ihb =>
    obtain ⟨ha, hb⟩ := join_not_predicate htag
    obtain ⟨hchoosesA, hchoosesB⟩ := Bool.or_eq_false_iff.1 hchooses
    obtain ⟨runA, hrunA⟩ := iha ha hchoosesA
    obtain ⟨runB, hrunB⟩ := ihb hb hchoosesB
    exact ⟨_, fun scope => by rw [Expr.eval, hrunA, hrunB]⟩
  | case3 => cases hchooses
  | case4 e hunary harithmetic hchoose =>
    cases e with
    | boolean b => exact ⟨pure (.boolean b), fun scope => by rw [Expr.eval]⟩
    | number n => exact ⟨pure (.number n), fun scope => by rw [Expr.eval]⟩
    | text s => exact ⟨pure (.text s), fun scope => by rw [Expr.eval]⟩
    | unary op a => exact (hunary op a rfl).elim
    | arithmetic op a b => exact (harithmetic op a b rfl).elim
    | choose condition yes no => exact (hchoose condition yes no rfl).elim
    | disjunction | conjunction | instanceOf | quantified | test | interval =>
      exact absurd predicate_test htag
    | _ => exact absurd predicate_none htag

/-! ## A choice for a condition -/

/-- `if p then true`. -/
def Expr.trueIf (p : Expr) : Expr := .choose p (.boolean true) none

/-- `if p then true else false`. -/
def Expr.trueElseFalse (p : Expr) : Expr := .choose p (.boolean true) (some (.boolean false))

theorem trueIf_outcome (p : Expr) (scope : Scope) :
    (p.trueIf.eval registry scope).outcome = (p.eval registry scope).outcome.map fun v =>
      if v.isTrue then .boolean true else .null := by
  unfold Expr.trueIf
  rw [Expr.eval, Run.bind_outcome, Expr.eval]
  cases (p.eval registry scope).outcome with
  | error f => rfl
  | ok v =>
    by_cases hv : v.isTrue = true
    · simp only [bind, Except.bind, Except.map, if_pos hv, Run.pure_outcome]
    · simp only [bind, Except.bind, Except.map, if_neg hv, Run.pure_outcome]

theorem trueElseFalse_outcome (p : Expr) (scope : Scope) :
    (p.trueElseFalse.eval registry scope).outcome =
      (p.eval registry scope).outcome.map fun v => .boolean v.isTrue := by
  unfold Expr.trueElseFalse
  rw [Expr.eval, Run.bind_outcome, Expr.eval]
  cases (p.eval registry scope).outcome with
  | error f => rfl
  | ok v =>
    by_cases hv : v.isTrue = true
    · simp only [bind, Except.bind, Except.map, hv, if_true, Run.pure_outcome]
    · rw [Bool.not_eq_true] at hv
      simp only [bind, Except.bind, Except.map, hv, Bool.false_eq_true, if_false, Expr.eval,
        Run.pure_outcome]

theorem isTrue_ofBool (o : Option Bool) : (Value.ofBool? o).isTrue = decide (o = some true) := by
  cases o with
  | none => rfl
  | some b => cases b <;> rfl

theorem kind_ofBool (o : Option Bool) : (Value.ofBool? o).kind ≠ .probe := by
  cases o <;> exact fun h => nomatch h

/-- All elements or none are those that pass a test, if the test has one answer for all. -/
theorem all_or_none_eq_filter {α : Type} (items : List α) (test : α → Bool) (keep : Bool) :
    (if keep then items else []) = items.filter test ↔ ∀ item ∈ items, test item = keep := by
  cases keep with
  | true =>
    rw [if_pos rfl, eq_comm, List.filter_eq_self]
  | false =>
    rw [if_neg Bool.false_ne_true, eq_comm, List.filter_eq_nil_iff]
    exact forall₂_congr fun _ _ => iff_of_eq (Bool.not_eq_true _)

/-- Keeping all elements or none by a value keeps those that answer true exactly if each element's answer
is true if and only if the value is. -/
theorem all_or_none_outcome (outside : Except Failure Value) (items : List Value)
    (answers : Value → Option Bool) :
    (outside.map fun w => Value.list (if w.isTrue then items else [])) =
        .ok (.list (items.filter fun item => answers item = some true)) ↔
      ∃ w, outside = .ok w ∧ ∀ item ∈ items, (answers item = some true ↔ w.isTrue = true) := by
  cases outside with
  | error f =>
    constructor
    · exact fun h => nomatch h
    · exact fun h => nomatch h.choose_spec.1
  | ok w =>
    have hsame := all_or_none_eq_filter items (fun item => decide (answers item = some true)) w.isTrue
    have hdecide : ∀ item, decide (answers item = some true) = w.isTrue ↔
        (answers item = some true ↔ w.isTrue = true) := by
      intro item
      rw [Bool.eq_iff_iff, decide_eq_true_iff]
    constructor
    · intro h
      have hlists := Value.list.inj (Except.ok.inj h)
      exact ⟨w, rfl, fun item hitem => (hdecide item).1 (hsame.1 hlists item hitem)⟩
    · rintro ⟨_, hw, hitems⟩
      cases hw
      have hlists := hsame.2 fun item hitem => (hdecide item).2 (hitems item hitem)
      exact congrArg (fun kept => Except.ok (Value.list kept)) hlists

/-- A filter by `if p then true` is a predicate, whatever `p` is. -/
theorem filter_trueIf {answers : Value → Option Bool}
    (hxs : (xs.eval registry scope).outcome = .ok (.list items))
    (hp : ∀ item ∈ items, (p.eval registry (scope.extend item.itemLayer)).outcome =
      .ok (.ofBool? (answers item))) :
    ((Expr.filter xs p.trueIf).eval registry scope).outcome =
      .ok (.list (items.filter fun item => answers item = some true)) := by
  have hanswers : Answers (p.trueIf.eval registry) scope items fun item =>
      if answers item = some true then .boolean true else .null := by
    intro item hitem
    constructor
    · rw [trueIf_outcome, hp item hitem]
      simp only [Except.map, isTrue_ofBool, decide_eq_true_iff]
    · dsimp only
      split <;> exact fun h => nomatch h
  have hpredicate : Tag.Predicate p.trueIf.tag := by
    refine ⟨?_, ?_, ?_⟩ <;> exact fun h => nomatch h
  rw [filter_predicate hxs hpredicate hanswers]
  congr 3
  funext item
  by_cases htrue : answers item = some true
  · rw [if_pos htrue, decide_eq_true htrue]
    rfl
  · rw [if_neg htrue, decide_eq_false htrue]
    rfl

/-- A filter by `if p then true else false` asks `p` in the scope around it. -/
theorem filter_trueElseFalse (hxs : (xs.eval registry scope).outcome = .ok (.list items)) :
    ((Expr.filter xs p.trueElseFalse).eval registry scope).outcome =
      ((p.eval registry scope).outcome.map fun w => .list (if w.isTrue then items else [])) := by
  have hboolean : p.trueElseFalse.tag = some .boolean := by rfl
  rw [filter_boolean hxs hboolean, trueElseFalse_outcome]
  cases (p.eval registry scope).outcome with
  | error f => rfl
  | ok w => rfl

end Selection

/-- **A condition `if p then true else false` is asked once.** Where `p` answers true, false or null for
each element, and no tag tells of a number, a text or a boolean, a filter by `p` keeps the elements for
which `p` is true, and so does one by `if p then true`. A filter by `if p then true else false` takes its
condition for a fixed boolean: it evaluates `p` in the scope around the filter, where no element is bound,
fails if `p` fails there, and keeps all elements or none. So it keeps the same elements exactly if `p` has
a value outside and each element's answer is true if and only if that value is. -/
theorem filter_by_choice (registry : Fields) (scope : Scope) (xs p : Expr) (items : List Value)
    (answers : Value → Option Bool)
    (hxs : (xs.eval registry scope).outcome = .ok (.list items)) (htag : Tag.Predicate p.tag)
    (hp : ∀ item ∈ items, (p.eval registry (scope.extend item.itemLayer)).outcome =
      .ok (.ofBool? (answers item))) :
    ((Expr.filter xs p).eval registry scope).outcome =
        .ok (.list (items.filter fun item => answers item = some true)) ∧
      ((Expr.filter xs p.trueIf).eval registry scope).outcome =
        ((Expr.filter xs p).eval registry scope).outcome ∧
      ((Expr.filter xs p.trueElseFalse).eval registry scope).outcome =
        ((p.eval registry scope).outcome.map fun w => .list (if w.isTrue then items else [])) ∧
      (((Expr.filter xs p.trueElseFalse).eval registry scope).outcome =
          ((Expr.filter xs p).eval registry scope).outcome ↔
        ∃ w, (p.eval registry scope).outcome = .ok w ∧
          ∀ item ∈ items, (answers item = some true ↔ w.isTrue = true)) := by
  have hkept : ((Expr.filter xs p).eval registry scope).outcome =
      .ok (.list (items.filter fun item => answers item = some true)) := by
    have hanswers : Answers (p.eval registry) scope items fun item => .ofBool? (answers item) :=
      fun item hitem => ⟨hp item hitem, kind_ofBool _⟩
    rw [filter_predicate hxs htag hanswers]
    simp only [isTrue_ofBool]
  have honce := filter_trueElseFalse (p := p) hxs
  refine ⟨hkept, (filter_trueIf hxs hp).trans hkept.symm, honce, ?_⟩
  rw [honce, hkept]
  exact all_or_none_outcome (p.eval registry scope).outcome items answers

/-- `[1, 2, 3]`. -/
def Expr.oneToThree : Expr :=
  .list [.number (.whole 1), .number (.whole 2), .number (.whole 3)]

/-- `item > 1`. -/
def Expr.itemAboveOne : Expr := .relation .greater (.name "item") (.number (.whole 1))

theorem filter_by_choice_above_one :
    ((Expr.filter .oneToThree .itemAboveOne).eval standardRegistry (.ofFields [])).outcome =
        .ok (.list [.whole 2, .whole 3]) ∧
      ((Expr.filter .oneToThree Expr.itemAboveOne.trueIf).eval standardRegistry
        (.ofFields [])).outcome = .ok (.list [.whole 2, .whole 3]) := by
  have hanswers : ∀ item ∈ [Value.whole 1, .whole 2, .whole 3],
      (Expr.itemAboveOne.eval standardRegistry ((Scope.ofFields []).extend item.itemLayer)).outcome =
        .ok (.ofBool? (item.gt? (.whole 1))) := by
    intro item hitem
    simp only [List.mem_cons, List.not_mem_nil, or_false] at hitem
    rcases hitem with rfl | rfl | rfl <;> rfl
  have htag : Tag.Predicate Expr.itemAboveOne.tag := ⟨nofun, nofun, nofun⟩
  obtain ⟨hkept, hsame, -, -⟩ := filter_by_choice standardRegistry (.ofFields []) .oneToThree
    .itemAboveOne [.whole 1, .whole 2, .whole 3] (·.gt? (.whole 1)) (by rfl) htag hanswers
  have htwo : [Value.whole 1, .whole 2, .whole 3].filter
      (fun item => decide (item.gt? (.whole 1) = some true)) = [.whole 2, .whole 3] := by rfl
  rw [htwo] at hkept
  exact ⟨hkept, hsame.trans hkept⟩

/-- Each number of a list answers whether it is above one, and yet the choice between true and false keeps
none: outside of the elements there is no number to compare. -/
theorem choice_of_booleans_asked_once :
    Tag.Predicate Expr.itemAboveOne.tag ∧
      (∀ item ∈ [Value.whole 1, .whole 2, .whole 3], ∃ b,
        (Expr.itemAboveOne.eval standardRegistry ((Scope.ofFields []).extend item.itemLayer)).outcome =
          .ok (.boolean b)) ∧
      ((Expr.filter .oneToThree .itemAboveOne).eval standardRegistry (.ofFields [])).outcome =
        .ok (.list [.whole 2, .whole 3]) ∧
      ((Expr.filter .oneToThree Expr.itemAboveOne.trueElseFalse).eval standardRegistry
        (.ofFields [])).outcome = .ok (.list []) := by
  refine ⟨⟨nofun, nofun, nofun⟩, ?_, by rfl, by rfl⟩
  intro item hitem
  simp only [List.mem_cons, List.not_mem_nil, or_false] at hitem
  rcases hitem with rfl | rfl | rfl
  · exact ⟨false, by rfl⟩
  · exact ⟨true, by rfl⟩
  · exact ⟨true, by rfl⟩

end Criterion

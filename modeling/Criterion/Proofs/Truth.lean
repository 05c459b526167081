import Criterion.Proofs.Selection
import Criterion.Proofs.Tags

/-!
# What counts as true

Conditions, quantifiers and filters take everything but null and false for true. The connectives ask another
question: they take zero and the empty text, list and context for untrue as well. So splitting a condition
`a and b` into two nested ones may change what is chosen, and it does exactly if a value of the second kind takes
part.

* `Value.Hollow`: the values that are true as conditions and untrue in connectives.
* `Value.hollow_iff`: there are no others.
* `Quantifier.holds`, `decideQuantifier_outcome`: quantifiers take for true what conditions do.
* `filter_fixed`: so do filters by a fixed boolean, for which the two questions have one answer.
* `conjunction_chooses`, `disjunction_chooses`: what a connective chooses, and what two choices by its operands do.
* `connectives_ask_nonzero`: **a choice by `and` or `or` is the nested choice exactly if no hollow value decides;
  conditions, quantifiers and filters only take null and false for untrue.**
-/

namespace Criterion

namespace Value

variable {v w : Value}

/-- The values that are neither null nor false and yet count as untrue in connectives. -/
inductive Hollow : Value → Prop where
  | zero {n : Number} (h : n.isZero = true) : Hollow (.number n)
  | text : Hollow (.text "")
  | duration {d : Duration} (h : d.micros = 0) : Hollow (.duration d)
  | list : Hollow (.list [])
  | context : Hollow (.context [])

theorem hollow_iff (v : Value) : v.Hollow ↔ v.isTrue = true ∧ v.isNonzero = false := by
  constructor
  · rintro (h | _ | h | _ | _)
    · exact ⟨rfl, by rw [isNonzero, h]; rfl⟩
    · exact ⟨rfl, by decide⟩
    · exact ⟨rfl, by rw [isNonzero, h]; rfl⟩
    · exact ⟨rfl, rfl⟩
    · exact ⟨rfl, rfl⟩
  · rintro ⟨htrue, hnonzero⟩
    cases v with
    | number n => exact .zero (by simpa [isNonzero] using hnonzero)
    | text s =>
      obtain rfl : s = "" := by simpa [isNonzero] using hnonzero
      exact .text
    | duration d => exact .duration (by simpa [isNonzero] using hnonzero)
    | list items =>
      obtain rfl : items = [] := by simpa [isNonzero] using hnonzero
      exact .list
    | context fields =>
      obtain rfl : fields = [] := by simpa [isNonzero] using hnonzero
      exact .context
    | boolean b => exact absurd (htrue.symm.trans hnonzero) nofun
    | null => exact nomatch htrue
    | _ => exact nomatch hnonzero

/-- What connectives take for true, conditions do. -/
theorem isTrue_of_isNonzero (h : v.isNonzero = true) : v.isTrue = true := by
  cases v with
  | null => exact h
  | boolean b => exact h
  | _ => rfl

/-- The two questions have one answer for all values but the hollow ones. -/
theorem isNonzero_iff (v : Value) : v.isNonzero = true ↔ v.isTrue = true ∧ ¬v.Hollow := by
  rw [hollow_iff, not_and, Bool.not_eq_false]
  exact ⟨fun h => ⟨isTrue_of_isNonzero h, fun _ => h⟩, fun h => h.2 h.1⟩

end Value

/-! ## Quantifiers and filters -/

/-- What a quantifier says of the verdicts in all scopes. -/
def Quantifier.holds : Quantifier → List Bool → Bool
  | .every, verdicts => verdicts.all id
  | .some, verdicts => verdicts.any id

section

variable {registry : Fields} {scope : Scope}

/-- A quantifier goes by whether its condition is true, scope by scope. -/
theorem decideQuantifier_outcome (q : Quantifier) {condition : Scope → Eval Value}
    {answers : Scope → Value} {scopes : List Scope}
    (h : ∀ s ∈ scopes, (condition s).outcome = .ok (answers s)) :
    (decideQuantifier q condition scopes).outcome =
      .ok (q.holds (scopes.map fun s => (answers s).isTrue)) := by
  induction scopes with
  | nil => cases q <;> rfl
  | cons s rest ih =>
    obtain ⟨hs, hrest⟩ := List.forall_mem_cons.1 h
    have ih := ih hrest
    rw [decideQuantifier, Run.bind_of_ok hs]
    cases htrue : (answers s).isTrue <;> cases q <;>
      simp_all [Quantifier.holds]

/-- A quantified expression goes by whether its condition is true, round by round. -/
theorem quantified_outcome (q : Quantifier) {bindings : List (String × Expr)} {condition : Expr}
    {domains : List (String × List Value)} {answers : Scope → Value}
    (hdomains : (Expr.evalDomains registry bindings scope).outcome = .ok domains)
    (h : ∀ s ∈ loopScopes scope domains, (condition.eval registry s).outcome = .ok (answers s)) :
    ((Expr.quantified q bindings condition).eval registry scope).outcome =
      .ok (.boolean (q.holds ((loopScopes scope domains).map fun s => (answers s).isTrue))) := by
  rw [Expr.eval, Run.bind_of_ok hdomains, Run.bind_of_ok (decideQuantifier_outcome q h),
    Run.pure_outcome]

/-- What has the tag of a boolean is a boolean or null, which are not hollow. -/
theorem isNonzero_of_boolean {v : Value} (h : Tag.boolean.Allows v) : v.isNonzero = v.isTrue := by
  have hhollow : ¬v.Hollow := by
    intro hv
    obtain hkind | hkind := h .boolean rfl <;> cases hv <;> cases hkind
  rw [Bool.eq_iff_iff, Value.isNonzero_iff]
  exact and_iff_left hhollow

/-- A filter by a fixed boolean keeps all elements if it is true, and else none. -/
theorem filter_fixed {xs condition : Expr} {items : List Value} {w : Value}
    (hxs : (xs.eval registry scope).outcome = .ok (.list items))
    (htag : condition.tag = some .boolean)
    (hw : (condition.eval registry scope).outcome = .ok w) :
    ((Expr.filter xs condition).eval registry scope).outcome =
      .ok (.list (if w.isTrue then items else [])) := by
  rw [filter_boolean hxs htag, hw, Except.map,
    isNonzero_of_boolean (eval_allows registry condition .boolean htag scope w hw)]

end

/-! ## Choices by connectives -/

section

variable {registry : Fields} {scope : Scope} {a b x y : Expr} {va vb vx vy : Value}

theorem choose_outcome {c : Value} (hc : (a.eval registry scope).outcome = .ok c)
    (hx : (x.eval registry scope).outcome = .ok vx) (hy : (y.eval registry scope).outcome = .ok vy) :
    ((Expr.choose a x (some y)).eval registry scope).outcome =
      .ok (if c.isTrue then vx else vy) := by
  rw [Expr.eval, Run.bind_of_ok hc]
  cases c.isTrue with
  | true => exact hx
  | false => exact hy

theorem conjunction_outcome (hreports : scope.reports = false)
    (ha : (a.eval registry scope).outcome = .ok va) (hb : (b.eval registry scope).outcome = .ok vb) :
    ((Expr.conjunction a b).eval registry scope).outcome =
      .ok (.boolean (va.isNonzero && vb.isNonzero)) := by
  rw [Expr.eval, Run.bind_of_ok ha, Run.bind_of_ok hb, hreports]
  cases hva : va.isNonzero with
  | true => rfl
  | false => simp [hva]

theorem disjunction_outcome (hreports : scope.reports = false)
    (ha : (a.eval registry scope).outcome = .ok va) (hb : (b.eval registry scope).outcome = .ok vb) :
    ((Expr.disjunction a b).eval registry scope).outcome =
      .ok (.boolean (va.isNonzero || vb.isNonzero)) := by
  rw [Expr.eval, Run.bind_of_ok ha, Run.bind_of_ok hb, hreports]
  cases hva : va.isNonzero with
  | true => simp [hva]
  | false => rfl

/-- A choice by `and`, and the two choices one in the other. -/
theorem conjunction_chooses (hreports : scope.reports = false)
    (ha : (a.eval registry scope).outcome = .ok va) (hb : (b.eval registry scope).outcome = .ok vb)
    (hx : (x.eval registry scope).outcome = .ok vx) (hy : (y.eval registry scope).outcome = .ok vy) :
    ((Expr.choose (.conjunction a b) x (some y)).eval registry scope).outcome =
        .ok (if va.isNonzero && vb.isNonzero then vx else vy) ∧
      ((Expr.choose a (.choose b x (some y)) (some y)).eval registry scope).outcome =
        .ok (if va.isTrue && vb.isTrue then vx else vy) := by
  refine ⟨choose_outcome (conjunction_outcome hreports ha hb) hx hy, ?_⟩
  rw [choose_outcome ha (choose_outcome hb hx hy) hy]
  cases va.isTrue <;> rfl

/-- A choice by `or`, and the two choices one after the other. -/
theorem disjunction_chooses (hreports : scope.reports = false)
    (ha : (a.eval registry scope).outcome = .ok va) (hb : (b.eval registry scope).outcome = .ok vb)
    (hx : (x.eval registry scope).outcome = .ok vx) (hy : (y.eval registry scope).outcome = .ok vy) :
    ((Expr.choose (.disjunction a b) x (some y)).eval registry scope).outcome =
        .ok (if va.isNonzero || vb.isNonzero then vx else vy) ∧
      ((Expr.choose a x (some (.choose b x (some y)))).eval registry scope).outcome =
        .ok (if va.isTrue || vb.isTrue then vx else vy) := by
  refine ⟨choose_outcome (disjunction_outcome hreports ha hb) hx hy, ?_⟩
  rw [choose_outcome ha hx (choose_outcome hb hx hy)]
  cases va.isTrue <;> rfl

/-- Two choices between the same values agree if the values or the verdicts do. -/
theorem choices_agree_iff {p q : Bool} :
    (Except.ok (if p then vx else vy) : Except Failure Value) = .ok (if q then vx else vy) ↔
      vx = vy ∨ p = q := by
  rw [Except.ok.injEq]
  cases p <;> cases q <;> simp [eq_comm]

/-- **Connectives ask whether a value is nonzero, and everything else whether it is other than null and false.**
Without reports of the matched value, a choice by `a and b` is that by `a` and then by `b`, unless both are true
and one of them is hollow; and a choice by `a or b` is that by `a` or else by `b`, unless one of them is hollow
and the other is no better. A quantifier goes by whether its condition is true in each round, a filter by a
predicate keeps the elements for which it is true, and a filter by a fixed boolean keeps all elements if that is
true. -/
theorem connectives_ask_nonzero (hreports : scope.reports = false)
    (ha : (a.eval registry scope).outcome = .ok va) (hb : (b.eval registry scope).outcome = .ok vb)
    (hx : (x.eval registry scope).outcome = .ok vx) (hy : (y.eval registry scope).outcome = .ok vy) :
    ((Expr.choose (.conjunction a b) x (some y)).eval registry scope).outcome =
        .ok (if va.isNonzero && vb.isNonzero then vx else vy) ∧
    (((Expr.choose (.conjunction a b) x (some y)).eval registry scope).outcome =
        ((Expr.choose a (.choose b x (some y)) (some y)).eval registry scope).outcome ↔
      vx = vy ∨ ¬(va.isTrue = true ∧ vb.isTrue = true ∧ (va.Hollow ∨ vb.Hollow))) ∧
    ((Expr.choose (.disjunction a b) x (some y)).eval registry scope).outcome =
        .ok (if va.isNonzero || vb.isNonzero then vx else vy) ∧
    (((Expr.choose (.disjunction a b) x (some y)).eval registry scope).outcome =
        ((Expr.choose a x (some (.choose b x (some y)))).eval registry scope).outcome ↔
      vx = vy ∨ ¬((va.Hollow ∨ vb.Hollow) ∧ va.isNonzero = false ∧ vb.isNonzero = false)) ∧
    (∀ q bindings condition domains (answers : Scope → Value),
      (Expr.evalDomains registry bindings scope).outcome = .ok domains →
      (∀ s ∈ loopScopes scope domains, (condition.eval registry s).outcome = .ok (answers s)) →
      ((Expr.quantified q bindings condition).eval registry scope).outcome =
        .ok (.boolean (q.holds ((loopScopes scope domains).map fun s => (answers s).isTrue)))) ∧
    (∀ xs p items, (xs.eval registry scope).outcome = .ok (.list items) →
      (∀ answers, Tag.Predicate p.tag → Answers (p.eval registry) scope items answers →
        ((Expr.filter xs p).eval registry scope).outcome =
          .ok (.list (items.filter fun item => (answers item).isTrue))) ∧
      (∀ w, p.tag = some .boolean → (p.eval registry scope).outcome = .ok w →
        ((Expr.filter xs p).eval registry scope).outcome =
          .ok (.list (if w.isTrue then items else [])))) := by
  obtain ⟨hand, hnestedAnd⟩ := conjunction_chooses hreports ha hb hx hy
  obtain ⟨hor, hnestedOr⟩ := disjunction_chooses hreports ha hb hx hy
  refine ⟨hand, ?_, hor, ?_, ?_, ?_⟩
  · rw [hand, hnestedAnd, choices_agree_iff, Bool.eq_iff_iff, Bool.and_eq_true, Bool.and_eq_true,
      va.isNonzero_iff, vb.isNonzero_iff]
    exact or_congr_right (by tauto)
  · rw [hor, hnestedOr, choices_agree_iff, Bool.eq_iff_iff, Bool.or_eq_true, Bool.or_eq_true,
      ← Bool.not_eq_true, ← Bool.not_eq_true, va.isNonzero_iff, vb.isNonzero_iff]
    have hva : va.Hollow → va.isTrue = true := fun h => (va.hollow_iff.1 h).1
    have hvb : vb.Hollow → vb.isTrue = true := fun h => (vb.hollow_iff.1 h).1
    exact or_congr_right (by tauto)
  · exact fun q bindings condition domains answers => quantified_outcome q
  · exact fun xs p items hxs => ⟨fun answers => filter_predicate hxs, fun w => filter_fixed hxs⟩

/-- By `0 and true` the second value is chosen, although `0` is true as a condition. -/
theorem zero_and_true_chooses_second :
    ((Expr.choose (.conjunction (.number (.whole 0)) (.boolean true)) (.number (.whole 1))
      (some (.number (.whole 2)))).eval [] (.ofFields [])).outcome = .ok (.whole 2) ∧
    ((Expr.choose (.number (.whole 0))
      (.choose (.boolean true) (.number (.whole 1)) (some (.number (.whole 2))))
      (some (.number (.whole 2)))).eval [] (.ofFields [])).outcome = .ok (.whole 1) := by
  have hnumber : ∀ i : ℤ, ((Expr.number (.whole i)).eval [] (.ofFields [])).outcome =
      .ok (.whole i) := fun i => rfl
  have htrue : ((Expr.boolean true).eval [] (.ofFields [])).outcome = .ok (.boolean true) := rfl
  exact ⟨(connectives_ask_nonzero rfl (hnumber 0) htrue (hnumber 1) (hnumber 2)).1, rfl⟩

/-- By `[] or false` the second value is chosen, although the empty list is true as a condition. -/
theorem empty_or_false_chooses_second :
    ((Expr.choose (.disjunction (.list []) (.boolean false)) (.number (.whole 1))
      (some (.number (.whole 2)))).eval [] (.ofFields [])).outcome = .ok (.whole 2) ∧
    ((Expr.choose (.list []) (.number (.whole 1))
      (some (.choose (.boolean false) (.number (.whole 1)) (some (.number (.whole 2)))))).eval []
        (.ofFields [])).outcome = .ok (.whole 1) :=
  ⟨rfl, rfl⟩

end

end Criterion

import Criterion.Proofs.Runs
import Criterion.UnaryTests
import Mathlib.Data.Bool.Basic
import Mathlib.Data.List.Forall2

/-!
# What an expression reads of its scope

An expression reads the names that stand in it, each as a whole and by its part before the first dot,
and two keys of the language: that of the tested value and, in comparisons and tests only, that of
reports. Scopes in which it reads the same give it the same value, the same failure and the same calls.
Loops and filters lay their own layers over the scope, so what is read must stay the same under the
same layer.

* `Expr.names`, `Expr.asks`: the names that stand in an expression, and whether it reads the key of
  reports.
* `Scope.Fixes`: related scopes have the same for all that is read.
* `Expr.eval_fixed`: **the evaluation of an expression is the same in such scopes.**
* `Scope.Agrees`: two scopes agree on some names and on the keys of the language.
* `Expr.eval_agrees`, `UnaryTests.eval_agrees`: so is the evaluation in scopes that agree.
-/

namespace Criterion

namespace Expr

mutual

/-- The names that stand in an expression, from left to right. -/
def names : Expr → List String
  | .null | .boolean _ | .number _ | .text _ | .wildcard | .registered _ | .input | .procedure => []
  | .name n => [n]
  | .list items => namesOfItems items
  | .context entries => namesOfEntries entries
  | .unary _ a => names a
  | .arithmetic _ a b | .relation _ a b | .member a b | .disjunction a b | .conjunction a b
  | .range a b | .filter a b => names a ++ names b
  | .between a low high => names a ++ names low ++ names high
  | .instanceOf a _ => names a
  | .choose condition yes none => names condition ++ names yes
  | .choose condition yes (some no) => names condition ++ names yes ++ names no
  | .loop bindings body => namesOfEntries bindings ++ names body
  | .quantified _ bindings condition => namesOfEntries bindings ++ names condition
  | .call _ callee arguments => names callee ++ namesOfItems arguments
  | .path target _ => names target
  | .test _ _ operand => names operand
  | .interval _ _ start stop _ => names start ++ names stop

/-- The names that stand in some expressions. -/
def namesOfItems : List Expr → List String
  | [] => []
  | e :: rest => names e ++ namesOfItems rest

/-- The names that stand in the expressions behind some keys. -/
def namesOfEntries : List (String × Expr) → List String
  | [] => []
  | (_, e) :: rest => names e ++ namesOfEntries rest

end

mutual

/-- Whether a comparison, a connective or a test stands in an expression. Only these answer otherwise
where reports are asked for. -/
def asks : Expr → Bool
  | .null | .boolean _ | .number _ | .text _ | .wildcard | .name _ | .registered _ | .input
  | .procedure => false
  | .relation .. | .between .. | .member .. | .disjunction .. | .conjunction .. | .test ..
  | .interval .. => true
  | .list items => asksOfItems items
  | .context entries => asksOfEntries entries
  | .unary _ a => asks a
  | .arithmetic _ a b | .range a b | .filter a b => asks a || asks b
  | .instanceOf a _ => asks a
  | .choose condition yes none => asks condition || asks yes
  | .choose condition yes (some no) => asks condition || asks yes || asks no
  | .loop bindings body => asksOfEntries bindings || asks body
  | .quantified _ bindings condition => asksOfEntries bindings || asks condition
  | .call _ callee arguments => asks callee || asksOfItems arguments
  | .path target _ => asks target

/-- Whether one of some expressions asks. -/
def asksOfItems : List Expr → Bool
  | [] => false
  | e :: rest => asks e || asksOfItems rest

/-- Whether one of the expressions behind some keys asks. -/
def asksOfEntries : List (String × Expr) → Bool
  | [] => false
  | (_, e) :: rest => asks e || asksOfEntries rest

end

end Expr

/-! ## Scopes -/

/-- Two scopes agree on some names, and on the keys of the language. -/
structure Scope.Agrees (names : List String) (s t : Scope) : Prop where
  input : s.get? Scope.inputKey = t.get? Scope.inputKey
  report : s.get? Scope.reportKey = t.get? Scope.reportKey
  whole : ∀ n ∈ names, s.get? n = t.get? n
  head : ∀ n ∈ names, s.get? (Scope.segments n).1 = t.get? (Scope.segments n).1

namespace Scope

variable {s t : Scope} {names more : List String}

theorem Agrees.mono (h : Agrees names s t) (hsub : ∀ n ∈ more, n ∈ names) : Agrees more s t :=
  ⟨h.input, h.report, fun n hn => h.whole n (hsub n hn), fun n hn => h.head n (hsub n hn)⟩

theorem Agrees.left (h : Agrees (names ++ more) s t) : Agrees names s t :=
  h.mono fun _ => List.mem_append_left _

theorem Agrees.right (h : Agrees (names ++ more) s t) : Agrees more s t :=
  h.mono fun _ => List.mem_append_right _

theorem get_extend (s : Scope) (layer : Fields) (name : String) :
    (s.extend layer).get? name = (layer.get? name).or (s.get? name) := by
  unfold extend get?
  rw [List.findSome?_cons]
  cases layer.get? name <;> rfl

theorem get_extend_self (s : Scope) (name : String) (v : Value) :
    (s.extend [(name, v)]).get? name = some v := by
  have hlayer : Fields.get? [(name, v)] name = some v := List.lookup_cons_self
  rw [get_extend, hlayer, Option.some_or]

/-- A layer of one name hides nothing but this name. -/
theorem get_extend_other {key name : String} (h : name ≠ key) (s : Scope) (v : Value) :
    (s.extend [(key, v)]).get? name = s.get? name := by
  have hlayer : Fields.get? [(key, v)] name = none := by
    unfold Fields.get?
    rw [List.lookup_cons, beq_false_of_ne h]
    rfl
  rw [get_extend, hlayer, Option.none_or]

/-- Scopes that agree do so under the same layer, whatever names it has. -/
theorem Agrees.extend (h : Agrees names s t) (layer : Fields) :
    Agrees names (s.extend layer) (t.extend layer) := by
  constructor
  · rw [get_extend, get_extend, h.input]
  · rw [get_extend, get_extend, h.report]
  · intro n hn
    rw [get_extend, get_extend, h.whole n hn]
  · intro n hn
    rw [get_extend, get_extend, h.head n hn]

theorem Agrees.reports (h : Agrees names s t) : s.reports = t.reports := by
  unfold Scope.reports Scope.get
  rw [h.report]

theorem Agrees.get_input (h : Agrees names s t) : s.get inputKey = t.get inputKey := by
  unfold Scope.get
  rw [h.input]

/-- A name is looked up as a whole and by its first part, and nothing else of the scope is read. -/
theorem resolve_congr {n : String} (hwhole : s.get? n = t.get? n)
    (hhead : s.get? (segments n).1 = t.get? (segments n).1) : s.resolve n = t.resolve n := by
  unfold Scope.resolve
  rw [hwhole]
  revert hhead
  obtain ⟨first, rest⟩ := segments n
  intro hhead
  cases rest with
  | nil => rfl
  | cons => simp only [hhead]

theorem Agrees.resolve (h : Agrees names s t) {n : String} (hn : n ∈ names) :
    s.resolve n = t.resolve n := resolve_congr (h.whole n hn) (h.head n hn)

end Scope

/-! ## What is read -/

/-- **All that is read of related scopes is the same**, given the names that are read and whether the key
of reports is; and it stays so under the same layer. -/
structure Scope.Fixes (R : Scope → Scope → Prop) (names : List String) (asks : Bool) : Prop where
  input : ∀ s t, R s t → s.get Scope.inputKey = t.get Scope.inputKey
  report : asks = true → ∀ s t, R s t → s.reports = t.reports
  name : ∀ n ∈ names, ∀ s t, R s t → s.resolve n = t.resolve n
  extend : ∀ s t, R s t → ∀ layer, R (s.extend layer) (t.extend layer)

namespace Scope.Fixes

variable {R : Scope → Scope → Prop} {names more : List String} {asks asksToo : Bool}

theorem left (h : Fixes R (names ++ more) asks) (hasks : asksToo = true → asks = true) :
    Fixes R names asksToo :=
  ⟨h.input, fun ha => h.report (hasks ha), fun n hn => h.name n (List.mem_append_left _ hn), h.extend⟩

theorem right (h : Fixes R (names ++ more) asks) (hasks : asksToo = true → asks = true) :
    Fixes R more asksToo :=
  ⟨h.input, fun ha => h.report (hasks ha), fun n hn => h.name n (List.mem_append_right _ hn), h.extend⟩

end Scope.Fixes

/-- Scopes that agree on some names do so in all that is read. -/
theorem Scope.fixes_agrees (names : List String) (asks : Bool) :
    Scope.Fixes (Scope.Agrees names) names asks :=
  ⟨fun _ _ h => h.get_input, fun _ _ _ h => h.reports, fun _ hn _ _ h => h.resolve hn,
    fun _ _ h layer => h.extend layer⟩

/-! ## Loops and filters -/

section Loops

variable {R : Scope → Scope → Prop} {s t : Scope} {body : Scope → Eval Value}

/-- What is computed in a scope is the same in related scopes. -/
def SameIn (R : Scope → Scope → Prop) {α : Type} (f : Scope → α) : Prop := ∀ s t, R s t → f s = f t

/-- The scopes of a loop are related one by one. -/
theorem loopScopes_related (hextend : ∀ layer, R (s.extend layer) (t.extend layer))
    (domains : List (String × List Value)) :
    List.Forall₂ R (loopScopes s domains) (loopScopes t domains) := by
  unfold loopScopes
  rw [List.forall₂_map_left_iff, List.forall₂_map_right_iff, List.forall₂_same]
  exact fun pairs _ => hextend _

theorem collect_same (hbody : SameIn R body)
    (hextend : ∀ s t, R s t → ∀ layer, R (s.extend layer) (t.extend layer)) {ss ts : List Scope}
    (h : List.Forall₂ R ss ts) : ∀ results, collect body results ss = collect body results ts := by
  induction h with
  | nil => exact fun _ => rfl
  | cons hst _ ih =>
    intro results
    simp only [collect]
    rw [hbody _ _ (hextend _ _ hst _)]
    simp only [ih]

theorem decideQuantifier_same (q : Quantifier) (hbody : SameIn R body) {ss ts : List Scope}
    (h : List.Forall₂ R ss ts) : decideQuantifier q body ss = decideQuantifier q body ts := by
  induction h with
  | nil => rfl
  | cons hst _ ih =>
    simp only [decideQuantifier]
    rw [hbody _ _ hst, ih]

theorem selectWhere_same (hbody : SameIn R body) (hextend : ∀ layer, R (s.extend layer) (t.extend layer))
    (items : List Value) : selectWhere body s items = selectWhere body t items := by
  induction items with
  | nil => rfl
  | cons item rest ih =>
    simp only [selectWhere]
    rw [hbody _ _ (hextend item.itemLayer), ih]

theorem select_same (hbody : SameIn R body) (h : R s t)
    (hextend : ∀ layer, R (s.extend layer) (t.extend layer)) (target : Value) (tag : Option Tag) :
    select target tag body s = select target tag body t := by
  unfold select
  rw [hbody s t h]
  simp only [selectWhere_same hbody hextend]

end Loops

/-! ## Expressions -/

/-- What is computed in a scope is the same in scopes that agree on some names. -/
def ReadsOnly (names : List String) {α : Type} (f : Scope → α) : Prop :=
  ∀ s t, Scope.Agrees names s t → f s = f t

namespace Expr

variable {R : Scope → Scope → Prop}

mutual

/-- **The evaluation of an expression is the same in scopes in which it reads the same.** -/
theorem eval_fixed (registry : Fields) : ∀ e : Expr, Scope.Fixes R e.names e.asks →
    SameIn R (eval registry e)
  | .null, _, _, _, _ | .boolean _, _, _, _, _ | .number _, _, _, _, _ | .text _, _, _, _, _
  | .wildcard, _, _, _, _ | .registered _, _, _, _, _ | .procedure, _, _, _, _ => rfl
  | .input, h, s, t, hst => by
    simp only [eval, h.input s t hst]
  | .name n, h, s, t, hst => by
    simp only [eval, resolveName, h.name n List.mem_cons_self s t hst]
  | .list items, h, s, t, hst => by
    simp only [eval, evalItems_fixed registry items h s t hst]
  | .context entries, h, s, t, hst => by
    simp only [eval, evalEntries_fixed registry entries h s t hst]
  | .unary _ a, h, s, t, hst => by
    simp only [eval, eval_fixed registry a h s t hst]
  | .arithmetic _ a b, h, s, t, hst => by
    simp only [eval, eval_fixed registry a (h.left Bool.or_inl) s t hst,
      eval_fixed registry b (h.right Bool.or_inr) s t hst]
  | .relation _ a b, h, s, t, hst => by
    simp only [eval, eval_fixed registry a (h.left fun _ => rfl) s t hst,
      eval_fixed registry b (h.right fun _ => rfl) s t hst, h.report rfl s t hst]
  | .member a tests, h, s, t, hst => by
    simp only [eval, eval_fixed registry a (h.left fun _ => rfl) s t hst,
      eval_fixed registry tests (h.right fun _ => rfl) s t hst, h.report rfl s t hst]
  | .disjunction a b, h, s, t, hst => by
    simp only [eval, eval_fixed registry a (h.left fun _ => rfl) s t hst,
      eval_fixed registry b (h.right fun _ => rfl) s t hst, h.report rfl s t hst]
  | .conjunction a b, h, s, t, hst => by
    simp only [eval, eval_fixed registry a (h.left fun _ => rfl) s t hst,
      eval_fixed registry b (h.right fun _ => rfl) s t hst, h.report rfl s t hst]
  | .range a b, h, s, t, hst => by
    simp only [eval, eval_fixed registry a (h.left Bool.or_inl) s t hst,
      eval_fixed registry b (h.right Bool.or_inr) s t hst]
  | .filter a condition, h, s, t, hst => by
    simp only [eval, eval_fixed registry a (h.left Bool.or_inl) s t hst,
      select_same (eval_fixed registry condition (h.right Bool.or_inr)) hst (h.extend s t hst)]
  | .between a low high, h, s, t, hst => by
    have hfirst : Scope.Fixes R (a.names ++ low.names) true := h.left fun _ => rfl
    simp only [eval, eval_fixed registry a (hfirst.left fun _ => rfl) s t hst,
      eval_fixed registry low (hfirst.right fun _ => rfl) s t hst,
      eval_fixed registry high (h.right fun _ => rfl) s t hst, h.report rfl s t hst]
  | .instanceOf a _, h, s, t, hst => by
    simp only [eval, eval_fixed registry a h s t hst]
  | .choose condition yes none, h, s, t, hst => by
    simp only [eval, eval_fixed registry condition (h.left Bool.or_inl) s t hst,
      eval_fixed registry yes (h.right Bool.or_inr) s t hst]
  | .choose condition yes (some no), h, s, t, hst => by
    have hfirst : Scope.Fixes R (condition.names ++ yes.names) (condition.asks || yes.asks) :=
      h.left Bool.or_inl
    simp only [eval, eval_fixed registry condition (hfirst.left Bool.or_inl) s t hst,
      eval_fixed registry yes (hfirst.right Bool.or_inr) s t hst,
      eval_fixed registry no (h.right Bool.or_inr) s t hst]
  | .loop bindings body, h, s, t, hst => by
    -- the domains are evaluated outside of the loop, so its scopes differ below the same layers
    simp only [eval, evalDomains_fixed registry bindings (h.left Bool.or_inl) s t hst,
      collect_same (eval_fixed registry body (h.right Bool.or_inr)) h.extend
        (loopScopes_related (h.extend s t hst) _)]
  | .quantified q bindings condition, h, s, t, hst => by
    simp only [eval, evalDomains_fixed registry bindings (h.left Bool.or_inl) s t hst,
      decideQuantifier_same q (eval_fixed registry condition (h.right Bool.or_inr))
        (loopScopes_related (h.extend s t hst) _)]
  | .call _ callee arguments, h, s, t, hst => by
    simp only [eval, eval_fixed registry callee (h.left Bool.or_inl) s t hst,
      evalItems_fixed registry arguments (h.right Bool.or_inr) s t hst]
  | .path target _, h, s, t, hst => by
    simp only [eval, eval_fixed registry target h s t hst]
  | .test _ _ operand, h, s, t, hst => by
    have hoperand : Scope.Fixes R operand.names operand.asks :=
      ⟨h.input, fun _ => h.report rfl, h.name, h.extend⟩
    simp only [eval, eval_fixed registry operand hoperand s t hst, h.report rfl s t hst]
  | .interval _ _ start stop _, h, s, t, hst => by
    simp only [eval, eval_fixed registry start (h.left fun _ => rfl) s t hst,
      eval_fixed registry stop (h.right fun _ => rfl) s t hst, h.report rfl s t hst]

theorem evalItems_fixed (registry : Fields) : ∀ items : List Expr,
    Scope.Fixes R (namesOfItems items) (asksOfItems items) → SameIn R (evalItems registry items)
  | [], _, _, _, _ => rfl
  | e :: rest, h, s, t, hst => by
    simp only [evalItems, eval_fixed registry e (h.left Bool.or_inl) s t hst,
      evalItems_fixed registry rest (h.right Bool.or_inr) s t hst]

theorem evalEntries_fixed (registry : Fields) : ∀ entries : List (String × Expr),
    Scope.Fixes R (namesOfEntries entries) (asksOfEntries entries) →
      SameIn R (evalEntries registry entries)
  | [], _, _, _, _ => rfl
  | (_, e) :: rest, h, s, t, hst => by
    simp only [evalEntries, eval_fixed registry e (h.left Bool.or_inl) s t hst,
      evalEntries_fixed registry rest (h.right Bool.or_inr) s t hst]

theorem evalDomains_fixed (registry : Fields) : ∀ entries : List (String × Expr),
    Scope.Fixes R (namesOfEntries entries) (asksOfEntries entries) →
      SameIn R (evalDomains registry entries)
  | [], _, _, _, _ => rfl
  | (_, e) :: rest, h, s, t, hst => by
    simp only [evalDomains, eval_fixed registry e (h.left Bool.or_inl) s t hst,
      evalDomains_fixed registry rest (h.right Bool.or_inr) s t hst]

end

/-- **The evaluation of an expression is the same in scopes that agree on its names.** -/
theorem eval_agrees (registry : Fields) (e : Expr) : ReadsOnly e.names (eval registry e) :=
  eval_fixed registry e (Scope.fixes_agrees e.names e.asks)

end Expr

/-! ## Unary tests -/

namespace UnaryTests

/-- The outcomes of tests are the same in scopes that agree on their names. -/
theorem outcomes_agree (registry : Fields) {s t : Scope} (v : Value) {tests : List Expr}
    (h : s.Agrees (Expr.namesOfItems tests) t) : ∀ soFar,
      outcomes registry s v soFar tests = outcomes registry t v soFar tests := by
  induction tests with
  | nil => exact fun _ => rfl
  | cons test rest ih =>
    intro soFar
    have htest : test.eval registry s = test.eval registry t := test.eval_agrees registry s t h.left
    have hrest := ih h.right
    simp only [outcomes, htest, hrest]

theorem eval_agrees (registry : Fields) {s t : Scope} (ts : UnaryTests) (v : Value)
    (h : s.Agrees (Expr.namesOfItems ts.tests) t) : ts.eval registry s v = ts.eval registry t v := by
  unfold UnaryTests.eval
  rw [outcomes_agree registry v h]

end UnaryTests

end Criterion

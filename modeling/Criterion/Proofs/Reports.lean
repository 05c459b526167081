import Criterion.Proofs.Decision

/-!
# What reports change

Where reports are asked for, a match is answered by the tested value in place of true. Nothing else
changes, as long as that value is neither zero nor empty and the tests are comparisons of it: the same
calls are made, and the same failures and the same other answers come out of both runs. The condition
on the value cannot be dropped. A zero that matches is taken for no match by the tests behind it.

* `Run.Related`: two runs with the same events, and related results or the same failure.
* `Expr.isSimple`, `Expr.comparesInput`, `Expr.decidesInput`: expressions that compare the tested value.
* `Outcome`: what a test says in both runs.
* `eval_simple`, `eval_compares`, `eval_decides_input`: the values of such expressions in both runs.
* `settle_outcomes`: related outcomes are combined into related answers.
* `reports_keep_matches`: **with reports there is a match exactly if there is one without.**
* `matched_zero_lost`: a zero that matches is lost.
-/

namespace Criterion

/-! ## Two runs -/

namespace Run

variable {ε α β γ δ : Type}

/-- Two runs with the same events that either have related results or fail alike. -/
def Related (R : α → β → Prop) (r : Run ε α) (s : Run ε β) : Prop :=
  r.events = s.events ∧ match r.outcome, s.outcome with
    | .ok a, .ok b => R a b
    | .error e, .error f => e = f
    | _, _ => False

variable {R : α → β → Prop} {r : Run ε α} {s : Run ε β}

theorem Related.pure {a : α} {b : β} (h : R a b) : Related R (pure a : Run ε α) (pure b) := ⟨rfl, h⟩

theorem Related.self {S : α → α → Prop} (h : ∀ a, r.outcome = .ok a → S a a) : Related S r r := by
  refine ⟨rfl, ?_⟩
  cases hr : r.outcome with
  | error e => rfl
  | ok a => exact h a hr

theorem Related.mono {S : α → β → Prop} (h : Related R r s) (hRS : ∀ a b, R a b → S a b) :
    Related S r s := by
  refine ⟨h.1, ?_⟩
  have hresult := h.2
  split at hresult
  · exact hRS _ _ hresult
  · exact hresult
  · exact hresult

/-- Related runs that go on in related ways. -/
theorem Related.bind {S : γ → δ → Prop} {f : α → Run ε γ} {g : β → Run ε δ} (h : Related R r s)
    (hfg : ∀ a b, R a b → Related S (f a) (g b)) : Related S (r >>= f) (s >>= g) := by
  obtain ⟨hevents, hresult⟩ := h
  cases hr : r.outcome with
  | error e =>
    cases hs : s.outcome with
    | error e' =>
      rw [hr, hs] at hresult
      rw [bind_of_error hr, bind_of_error hs]
      exact ⟨hevents, hresult⟩
    | ok b =>
      rw [hr, hs] at hresult
      exact hresult.elim
  | ok a =>
    cases hs : s.outcome with
    | error e' =>
      rw [hr, hs] at hresult
      exact hresult.elim
    | ok b =>
      rw [hr, hs] at hresult
      obtain ⟨hevents', hresult'⟩ := hfg a b hresult
      rw [bind_of_ok hr, bind_of_ok hs]
      exact ⟨congrArg₂ _ hevents hevents', hresult'⟩

end Run

theorem Run.Related.action {α β : Type} {R : α → β → Prop} {r : Eval α} {s : Eval β}
    (h : Run.Related R r s) : Run.Related R r.action s.action :=
  ⟨congrArg (List.flatMap _) h.1, h.2⟩

/-! ## Two scopes -/

namespace Scope

/-- The scope in which reports are asked for. -/
def reporting (s : Scope) : Scope := s.extend [(reportKey, .boolean true)]

/-- Two scopes that may differ in the key of reports. -/
def Apart (s t : Scope) : Prop := ∀ n, n ≠ reportKey → s.get? n = t.get? n

theorem apart_reporting (s : Scope) : s.Apart s.reporting := by
  intro n hn
  rw [reporting, get_extend_other hn]

theorem get_reporting (s : Scope) : s.reporting.get inputKey = s.get inputKey := by
  unfold get
  rw [s.apart_reporting _ (by decide)]

theorem reports_reporting (s : Scope) : s.reporting.reports = true := by
  unfold reports get reporting
  rw [get_extend]
  rfl

end Scope

/-- The key of reports is not named in the expression, neither to read it nor to bind it. -/
structure Expr.Unkeyed (e : Expr) : Prop where
  names : ∀ n ∈ e.names, n ≠ Scope.reportKey ∧ (Scope.segments n).1 ≠ Scope.reportKey
  binders : Scope.reportKey ∉ e.binders

theorem Expr.Unkeyed.parts {e a b : Expr} (h : e.Unkeyed) (hnames : e.names = a.names ++ b.names)
    (hbinders : e.binders = a.binders ++ b.binders) : a.Unkeyed ∧ b.Unkeyed := by
  obtain ⟨hn, hb⟩ := h
  rw [hnames] at hn
  rw [hbinders] at hb
  exact ⟨⟨fun n h => hn n (List.mem_append_left _ h), fun h => hb (List.mem_append_left _ h)⟩,
    ⟨fun n h => hn n (List.mem_append_right _ h), fun h => hb (List.mem_append_right _ h)⟩⟩

theorem Expr.Unkeyed.item {e : Expr} {items : List Expr} (h : (Expr.list items).Unkeyed)
    (he : e ∈ items) : e.Unkeyed :=
  ⟨fun n hn => h.names n (mem_namesOfItems.2 ⟨e, he, hn⟩),
    fun hb => h.binders (mem_bindersOfItems.2 ⟨e, he, hb⟩)⟩

/-- What does not ask for reports reads nothing that differs. -/
theorem fixes_apart {names : List String}
    (h : ∀ n ∈ names, n ≠ Scope.reportKey ∧ (Scope.segments n).1 ≠ Scope.reportKey) :
    Scope.Fixes Scope.Apart names false where
  input := by
    intro s t hst
    unfold Scope.get
    rw [hst _ (by decide)]
  report := nofun
  name := by
    intro n hn s t hst
    obtain ⟨hwhole, hhead⟩ := h n hn
    exact Scope.resolve_congr (hst _ hwhole) (hst _ hhead)
  extend := by
    intro s t hst layer n hn
    rw [Scope.get_extend, Scope.get_extend, hst n hn]

/-! ## Expressions that compare the tested value -/

namespace Expr

/-- A test by comparison or by an interval, or an expression that does not ask for reports. -/
def isSimple : Expr → Bool
  | .test _ _ operand => !operand.asks
  | .interval _ _ start stop _ => !start.asks && !stop.asks
  | e => !e.asks

/-- A list of simple expressions, or one of them. -/
def isSimpleList : Expr → Bool
  | .list items => items.all isSimple
  | e => e.isSimple

/-- A comparison of the tested value. -/
def comparesInput : Expr → Bool
  | .relation _ .input b => !b.asks
  | .between .input low high => !low.asks && !high.asks
  | .member .input tests => tests.isSimpleList
  | _ => false

/-- Comparisons of the tested value that are never null, joined by connectives. -/
def decidesInput : Expr → Bool
  | .relation op .input b => (op = .equal || op = .differs) && !b.asks
  | .member .input tests => tests.isSimpleList
  | .disjunction a b | .conjunction a b => decidesInput a && decidesInput b
  | _ => false

end Expr

/-! ## Their values in both runs -/

/-- What a test says of `v` in both runs: the same, which is true, false or null, or `v` itself in place
of true. -/
def Outcome (v w w' : Value) : Prop :=
  (w' = w ∧ ∃ o : Option Bool, w = .ofBool? o) ∨ (w = .boolean true ∧ w' = v)

theorem outcome_answer (v : Value) (o : Option Bool) : Outcome v (answer false v o) (answer true v o) := by
  rcases o with _ | _ | _
  · exact .inl ⟨rfl, none, rfl⟩
  · exact .inl ⟨rfl, some false, rfl⟩
  · exact .inr ⟨rfl, rfl⟩

/-- A nonzero value in place of true counts as true does. -/
theorem Outcome.isNonzero {v w w' : Value} (h : Outcome v w w') (hv : v.isNonzero = true) :
    w'.isNonzero = w.isNonzero := by
  rcases h with ⟨rfl, -⟩ | ⟨rfl, rfl⟩
  · rfl
  · exact hv

theorem outcome_or {v x' y' : Value} {x y : Bool} (hv : v.isNonzero = true)
    (hx : Outcome v (.boolean x) x') (hy : Outcome v (.boolean y) y') :
    Outcome v (.boolean (x || y)) (if x'.isNonzero then x' else y') := by
  rw [hx.isNonzero hv]
  cases x with
  | true => exact hx
  | false => exact hy

theorem outcome_and {v x' y' : Value} {x y : Bool} (hv : v.isNonzero = true)
    (hx : Outcome v (.boolean x) x') (hy : Outcome v (.boolean y) y') :
    Outcome v (.boolean (x && y)) (if x'.isNonzero then y' else x') := by
  rw [hx.isNonzero hv]
  cases x with
  | true => exact hy
  | false => exact hx

/-- Values of simple expressions in both runs: the same quiet value, or a test that reports in the second
run only. -/
inductive Value.Awaits : Value → Value → Prop where
  | same {w : Value} : w.Quiet → Awaits w w
  | relation (site : ℕ) (op : Relation) (operand : Eval Value) :
    Awaits (.probe (.relation site op operand false)) (.probe (.relation site op operand true))
  | interval (site : ℕ) (bounds : Interval Value) :
    Awaits (.probe (.interval site bounds false)) (.probe (.interval site bounds true))

section Values

variable {registry : Fields} {s : Scope} {e : Expr} {v w w' : Value}

/-- What does not ask for reports has the same value in both runs. -/
theorem eval_unasking (hregistry : (Value.context registry).Quiet) (hs : s.Silent) (he : e.asks = false)
    (hkey : e.Unkeyed) : Run.Related (fun w w' => w' = w ∧ w.Quiet) (e.eval registry s)
      (e.eval registry s.reporting) := by
  have hfixes : Scope.Fixes Scope.Apart e.names e.asks := he ▸ fixes_apart hkey.names
  rw [← Expr.eval_fixed registry e hfixes s _ s.apart_reporting]
  exact Run.Related.self fun w hw => ⟨rfl, Expr.eval_quiet hregistry e hkey.binders s hs w hw⟩

theorem eval_simple (hregistry : (Value.context registry).Quiet) (hs : s.Silent)
    (he : e.isSimple = true) (hkey : e.Unkeyed) :
    Run.Related Value.Awaits (e.eval registry s) (e.eval registry s.reporting) := by
  have hunasking : e.asks = false →
      Run.Related Value.Awaits (e.eval registry s) (e.eval registry s.reporting) := by
    intro hasks
    refine (eval_unasking hregistry hs hasks hkey).mono ?_
    rintro w _ ⟨rfl, hw⟩
    exact .same hw
  cases e with
  | test site op operand =>
    have hasks : operand.asks = false := by simpa [Expr.isSimple] using he
    have hoperand : Scope.Fixes Scope.Apart operand.names operand.asks :=
      hasks ▸ fixes_apart hkey.names
    simp only [Expr.eval, hs.reports, s.reports_reporting]
    rw [← Expr.eval_fixed registry operand hoperand s _ s.apart_reporting]
    exact .pure (.relation site op _)
  | interval site includesStart start stop includesStop =>
    obtain ⟨hstart, hstop⟩ := hkey.parts (a := start) (b := stop) rfl rfl
    have hasks : start.asks = false ∧ stop.asks = false := by simpa [Expr.isSimple] using he
    simp only [Expr.eval, hs.reports, s.reports_reporting]
    refine (eval_unasking hregistry hs hasks.1 hstart).bind ?_
    rintro w _ ⟨rfl, -⟩
    refine (eval_unasking hregistry hs hasks.2 hstop).bind ?_
    rintro u _ ⟨rfl, -⟩
    exact .pure (.interval site _)
  | _ => exact hunasking (by simpa [Expr.isSimple] using he)

/-- The elements that a value has as tests, in both runs. -/
theorem elements_awaits (h : w.Awaits w') : List.Forall₂ Value.Awaits w.elements w'.elements := by
  cases h with
  | same hw => exact List.forall₂_same.2 fun u hu => .same (elements_carries hw u hu)
  | relation site op operand => exact .cons (.relation site op operand) .nil
  | interval site bounds => exact .cons (.interval site bounds) .nil

theorem evalItems_related {T : Value → Value → Prop} : ∀ {es : List Expr},
    (∀ e ∈ es, Run.Related T (e.eval registry s) (e.eval registry s.reporting)) →
      Run.Related (List.Forall₂ T) (Expr.evalItems registry es s)
        (Expr.evalItems registry es s.reporting)
  | [], _ => .pure .nil
  | _ :: _, h => by
    obtain ⟨he, hrest⟩ := List.forall_mem_cons.1 h
    exact he.bind fun _ _ hw => (evalItems_related hrest).bind fun _ _ hws => .pure (.cons hw hws)

theorem eval_simpleList (hregistry : (Value.context registry).Quiet) (hs : s.Silent)
    (he : e.isSimpleList = true) (hkey : e.Unkeyed) :
    Run.Related (fun w w' => List.Forall₂ Value.Awaits w.elements w'.elements)
      (e.eval registry s) (e.eval registry s.reporting) := by
  have hsimple : e.isSimple = true → Run.Related
      (fun w w' => List.Forall₂ Value.Awaits w.elements w'.elements)
        (e.eval registry s) (e.eval registry s.reporting) := fun he =>
    (eval_simple hregistry hs he hkey).mono fun _ _ => elements_awaits
  cases e with
  | list items =>
    have hitems : ∀ e ∈ items, Run.Related Value.Awaits (e.eval registry s)
        (e.eval registry s.reporting) := fun e he' =>
      eval_simple hregistry hs (List.all_eq_true.1 he e he') (hkey.item he')
    exact (evalItems_related hitems).bind fun _ _ hws => .pure hws
  | _ => exact hsimple he

/-- A nonzero value passes the same tests in both runs. -/
theorem passes_awaits (hv : v.isNonzero = true) (h : w.Awaits w') : v.passes w' = v.passes w := by
  -- a match passes as true does, since the value in its place is nonzero
  have hanswer : ∀ o, (answer true v o).isNonzero = (answer false v o).isNonzero := by
    rintro (_ | _ | _)
    · rfl
    · rfl
    · exact hv
  cases h with
  | same hw => rfl
  | relation site op operand =>
    simp only [Value.passes, Probe.match, bind_assoc, pure_bind, hanswer]
  | interval site bounds =>
    simp only [Value.passes, Probe.match, bind_assoc, pure_bind, hanswer]

theorem passesAny_awaits (hv : v.isNonzero = true) {ws ws' : List Value}
    (h : List.Forall₂ Value.Awaits ws ws') : v.passesAny ws' = v.passesAny ws := by
  induction h with
  | nil => rfl
  | cons hw _ ih => simp only [Value.passesAny, passes_awaits hv hw, ih]

/-- Membership in a list of tests is the same in both runs for a nonzero value. -/
theorem eval_member (hregistry : (Value.context registry).Quiet) (hs : s.Silent) {tests : Expr}
    (hv : (s.get Scope.inputKey).isNonzero = true) (he : tests.isSimpleList = true)
    (hkey : tests.Unkeyed) :
    Run.Related (fun w w' => ∃ b, w = .boolean b ∧ Outcome (s.get Scope.inputKey) w w')
      ((Expr.member .input tests).eval registry s)
      ((Expr.member .input tests).eval registry s.reporting) := by
  simp only [Expr.eval, pure_bind, hs.reports, s.reports_reporting, s.get_reporting]
  refine (eval_simpleList hregistry hs he hkey).bind fun t t' ht => ?_
  rw [passesAny_awaits hv ht]
  -- from here on both runs search the same elements
  refine (Run.Related.self (S := fun b b' => b' = b) fun _ _ => rfl).bind ?_
  rintro _ found rfl
  exact .pure ⟨found, by cases found <;> rfl, outcome_answer _ (some found)⟩

/-- A comparison of the tested value says the same in both runs. -/
theorem eval_compares (hregistry : (Value.context registry).Quiet) (hs : s.Silent)
    (hv : (s.get Scope.inputKey).isNonzero = true) (he : e.comparesInput = true) (hkey : e.Unkeyed) :
    Run.Related (Outcome (s.get Scope.inputKey)) (e.eval registry s) (e.eval registry s.reporting) := by
  unfold Expr.comparesInput at he
  split at he
  · rename_i op b
    have hb : b.Unkeyed := (hkey.parts (a := .input) rfl rfl).2
    have hasks : b.asks = false := by simpa using he
    simp only [Expr.eval, pure_bind, hs.reports, s.reports_reporting, s.get_reporting]
    refine (eval_unasking hregistry hs hasks hb).bind ?_
    rintro _ w ⟨rfl, -⟩
    exact .pure (outcome_answer _ _)
  · rename_i low high
    obtain ⟨hlow, hhigh⟩ := hkey.parts (a := low) (b := high) rfl rfl
    have hasks : low.asks = false ∧ high.asks = false := by simpa using he
    simp only [Expr.eval, pure_bind, hs.reports, s.reports_reporting, s.get_reporting]
    refine (eval_unasking hregistry hs hasks.1 hlow).bind ?_
    rintro _ start ⟨rfl, -⟩
    refine (eval_unasking hregistry hs hasks.2 hhigh).bind ?_
    rintro _ stop ⟨rfl, -⟩
    exact .pure (outcome_answer _ _)
  · exact (eval_member hregistry hs hv he (hkey.parts (a := .input) rfl rfl).2).mono
      fun _ _ ⟨_, _, h⟩ => h
  · cases he

/-- Comparisons joined by connectives say the same in both runs, and never null. -/
theorem eval_decides_input (hregistry : (Value.context registry).Quiet) (hs : s.Silent)
    (hv : (s.get Scope.inputKey).isNonzero = true) : ∀ {e : Expr}, e.decidesInput = true → e.Unkeyed →
      Run.Related (fun w w' => ∃ b, w = .boolean b ∧ Outcome (s.get Scope.inputKey) w w')
        (e.eval registry s) (e.eval registry s.reporting) := by
  intro e
  induction e using Expr.decidesInput.induct with
  | case1 op b =>
    intro he hkey
    have hb : b.Unkeyed := (hkey.parts (a := .input) rfl rfl).2
    obtain ⟨hop, hasks⟩ : (op = .equal ∨ op = .differs) ∧ b.asks = false := by
      simpa [Expr.decidesInput] using he
    simp only [Expr.eval, pure_bind, hs.reports, s.reports_reporting, s.get_reporting]
    refine (eval_unasking hregistry hs hasks hb).bind ?_
    rintro _ w ⟨rfl, -⟩
    -- unlike an order, equality is decided for any two values
    obtain ⟨b, hcompared⟩ : ∃ b, Value.compare? op (s.get Scope.inputKey) w = some b := by
      rcases hop with rfl | rfl
      · exact ⟨_, rfl⟩
      · exact ⟨_, rfl⟩
    rw [hcompared]
    exact .pure ⟨b, by cases b <;> rfl, outcome_answer _ _⟩
  | case2 tests =>
    intro he hkey
    exact eval_member hregistry hs hv he (hkey.parts (a := .input) rfl rfl).2
  | case3 a b iha ihb =>
    intro he hkey
    obtain ⟨ha, hb⟩ := hkey.parts (a := a) (b := b) rfl rfl
    have hparts : a.decidesInput = true ∧ b.decidesInput = true := by
      simpa [Expr.decidesInput] using he
    simp only [Expr.eval, hs.reports, s.reports_reporting]
    refine (iha hparts.1 ha).bind ?_
    rintro _ x' ⟨x, rfl, hx⟩
    refine (ihb hparts.2 hb).bind ?_
    rintro _ y' ⟨y, rfl, hy⟩
    have hjoined : (if (Value.boolean x).isNonzero then Value.boolean x else .boolean y).isNonzero =
        (x || y) := by cases x <;> rfl
    simp only [Bool.false_eq_true, if_false, if_true, hjoined]
    exact .pure ⟨x || y, rfl, outcome_or hv hx hy⟩
  | case4 a b iha ihb =>
    intro he hkey
    obtain ⟨ha, hb⟩ := hkey.parts (a := a) (b := b) rfl rfl
    have hparts : a.decidesInput = true ∧ b.decidesInput = true := by
      simpa [Expr.decidesInput] using he
    simp only [Expr.eval, hs.reports, s.reports_reporting]
    refine (iha hparts.1 ha).bind ?_
    rintro _ x' ⟨x, rfl, hx⟩
    refine (ihb hparts.2 hb).bind ?_
    rintro _ y' ⟨y, rfl, hy⟩
    have hjoined : (if (Value.boolean x).isNonzero then Value.boolean y else .boolean x).isNonzero =
        (x && y) := by cases x <;> rfl
    simp only [Bool.false_eq_true, if_false, if_true, hjoined]
    exact .pure ⟨x && y, rfl, outcome_and hv hx hy⟩
  | case5 e hrelation hmember hor hand =>
    intro he
    simp [Expr.decidesInput] at he

end Values

/-! ## Answers -/

section Answers

variable {v : Value}

/-- What simple tests say. -/
theorem verdict_awaits {w w' : Value} (h : w.Awaits w') :
    Run.Related (Outcome v) (v.verdictOn w) (v.verdictOn w') := by
  cases h with
  | same hw => exact Run.Related.self fun o ho => .inl ⟨rfl, verdict_quiet hw ho⟩
  | relation site op operand =>
    refine (Run.Related.self (S := fun u u' => u' = u) fun _ _ => rfl).bind ?_
    rintro _ u rfl
    exact .pure (outcome_answer v _)
  | interval site bounds =>
    refine (Run.Related.self (S := fun o o' => o' = o) fun _ _ => rfl).bind ?_
    rintro _ o rfl
    exact .pure (outcome_answer v o)

/-- What comparisons of the tested value say, if that value says true of itself. -/
theorem verdict_outcome (hself : v.verdictOn v = return .boolean true) {w w' : Value}
    (h : Outcome v w w') : Run.Related (Outcome v) (v.verdictOn w) (v.verdictOn w') := by
  rcases h with ⟨rfl, _ | b, rfl⟩ | ⟨rfl, rfl⟩
  · exact .pure (.inl ⟨rfl, none, rfl⟩)
  · exact .pure (.inl ⟨rfl, some b, rfl⟩)
  · rw [hself]
    exact .pure (.inl ⟨rfl, some true, rfl⟩)

theorem verdicts_related {T : Value → Value → Prop}
    (hT : ∀ w w', T w w' → Run.Related (Outcome v) (v.verdictOn w) (v.verdictOn w'))
    {ws ws' : List Value} (h : List.Forall₂ T ws ws') :
    Run.Related (List.Forall₂ (Outcome v)) (ws.mapM v.verdictOn) (ws'.mapM v.verdictOn) := by
  induction h with
  | nil => exact .pure .nil
  | cons hw _ ih =>
    simp only [List.mapM_cons]
    exact (hT _ _ hw).bind fun _ _ ho => ih.bind fun _ _ hos => .pure (.cons ho hos)

theorem combineAll_outcomes (hv : v.isNonzero = true) {os os' : List Value}
    (h : List.Forall₂ (Outcome v) os os') : ∀ {soFar soFar' : Option Value},
      Option.Rel (Outcome v) soFar soFar' → Option.Rel (Outcome v)
        (UnaryTests.combineAll soFar os) (UnaryTests.combineAll soFar' os') := by
  induction h with
  | nil => exact fun hsoFar => hsoFar
  | @cons o o' os os' ho _ ih =>
    intro soFar soFar' hsoFar
    have hstep : Option.Rel (Outcome v) (UnaryTests.combine soFar (some o))
        (UnaryTests.combine soFar' (some o')) := by
      cases hsoFar with
      | none => exact .some ho
      | some ha =>
        -- a nonzero value is kept in both runs or in neither
        simp only [UnaryTests.combine, ha.isNonzero hv]
        split
        · exact .some ha
        · exact .some ho
    exact ih hstep

theorem settle_nonzero (negated : Bool) (hv : v.isNonzero = true) :
    UnaryTests.settle negated (some v) = if negated then .boolean false else v := by
  have hsettled : UnaryTests.settle negated (some v) =
      if negated then .boolean !v.isNonzero else v := by
    cases v with
    | null => cases hv
    | _ => rfl
  rw [hsettled, hv]
  rfl

/-- **Related outcomes are combined into related answers**, for a nonzero value. -/
theorem settle_outcomes (hv : v.isNonzero = true) (negated : Bool) {os os' : List Value}
    (h : List.Forall₂ (Outcome v) os os') :
    Outcome v (UnaryTests.settle negated (UnaryTests.combineAll none os))
      (UnaryTests.settle negated (UnaryTests.combineAll none os')) := by
  have hcombined := combineAll_outcomes hv h .none
  revert hcombined
  generalize UnaryTests.combineAll none os = a
  generalize UnaryTests.combineAll none os' = a'
  intro hcombined
  cases hcombined with
  | none => exact .inl ⟨rfl, none, rfl⟩
  | some h =>
    rcases h with ⟨rfl, _ | b, rfl⟩ | ⟨rfl, hreported⟩
    · exact .inl ⟨rfl, none, rfl⟩
    · cases negated with
      | true => exact .inl ⟨rfl, some !b, rfl⟩
      | false => exact .inl ⟨rfl, some b, rfl⟩
    · rw [hreported, settle_nonzero negated hv]
      cases negated with
      | true => exact .inl ⟨rfl, some false, rfl⟩
      | false => exact .inr ⟨rfl, rfl⟩

/-- **The answers of tests in both runs**, if each test is simple or compares the tested value. -/
theorem eval_related {registry : Fields} {s : Scope} (hregistry : (Value.context registry).Quiet)
    (hs : s.Silent) (hv : s.get Scope.inputKey = v ∧ v.isNonzero = true) {ts : UnaryTests}
    {negated : Bool} {es : List Expr} (h : ts.Lists negated es) (hkeys : ∀ e ∈ es, e.Unkeyed)
    (hes : ∀ e ∈ es, e.isSimple = true ∨ (e.comparesInput || e.decidesInput) = true ∧
      v.verdictOn v = return .boolean true) :
    Run.Related (Outcome v) (ts.eval registry s v) (ts.eval registry s.reporting v) := by
  obtain ⟨rfl, hv⟩ := hv
  cases h with
  | wildcard => exact .pure (.inl ⟨rfl, some true, rfl⟩)
  | list =>
    simp only [UnaryTests.eval_list]
    let T (w w' : Value) : Prop := Run.Related (Outcome (s.get Scope.inputKey))
      ((s.get Scope.inputKey).verdictOn w) ((s.get Scope.inputKey).verdictOn w')
    have hitems : ∀ e ∈ es, Run.Related T (e.eval registry s) (e.eval registry s.reporting) := by
      intro e he
      rcases hes e he with hsimple | ⟨hinput, hself⟩
      · exact (eval_simple hregistry hs hsimple (hkeys e he)).mono fun _ _ => verdict_awaits
      rcases Bool.or_eq_true_iff.1 hinput with hcompares | hdecides
      · exact (eval_compares hregistry hs hv hcompares (hkeys e he)).mono
          fun _ _ => verdict_outcome hself
      · exact (eval_decides_input hregistry hs hv hdecides (hkeys e he)).mono
          fun _ _ ⟨_, _, h⟩ => verdict_outcome hself h
    refine (evalItems_related hitems).bind fun ws ws' hws => ?_
    exact (verdicts_related (fun _ _ h => h) hws).bind fun _ _ hos =>
      .pure (settle_outcomes hv negated hos)

end Answers

/-! ## Sources -/

section Sources

variable {registry c : Fields} {source : String} {t : Tree} {negated : Bool} {us : List Tree}
  {es : List Expr} {ts : UnaryTests}

/-- A source whose tree is built into tests has their answer, also with reports. -/
theorem unaryTest_reporting (h : parse true source = .ok t)
    (hts : (t.build source).outcome = .ok (some (.tests ts))) :
    unaryTest ⟨registry, 0⟩ source c true =
      (ts.eval registry (Scope.ofFields c).reporting
        ((Scope.ofFields c).reporting.get Scope.inputKey)).action := by
  unfold unaryTest
  simp only [note_untraced, noteAnswer_untraced, build_untraced, h, hts, ofExcept_ok_bind, pure_bind,
    if_true, bind_pure]
  rfl

/-- Trees are built into one list of expressions only. -/
theorem make_unique {es' : List Expr} (h : Tree.Make source us es) (h' : Tree.Make source us es') :
    es' = es := by
  induction h generalizing es' with
  | nil =>
    cases h'
    rfl
  | cons hu _ ih =>
    cases h' with
    | cons hu' h' =>
      cases hu.symm.trans hu'
      rw [ih h']

theorem make_mem (h : Tree.Make source us es) {u : Tree} (hu : u ∈ us) :
    ∃ e, (u.build source).outcome = .ok (some (.expr e)) := by
  induction h with
  | nil => exact absurd hu List.not_mem_nil
  | cons he _ ih =>
    rcases List.mem_cons.1 hu with rfl | hu
    · exact ⟨_, he⟩
    · exact ih hu

/-- A source whose tests are built into some expressions is built into tests that are made of them. -/
theorem build_of_make (h : parse true source = .ok t) (htests : t.tests? = some (negated, us))
    (hmake : Tree.Make source us es) :
    ∃ ts, (t.build source).outcome = .ok (some (.tests ts)) ∧ ts.Lists negated es := by
  obtain ⟨negated', us', htests', -, hbuilt⟩ := build_tests h
  -- a tree has one list of tests, and these are built into one list of expressions
  obtain ⟨rfl, rfl⟩ := Prod.mk.inj (Option.some.inj (htests.symm.trans htests'))
  rcases hbuilt with ⟨⟨u, hu, hfail⟩, -⟩ | ⟨es', ts, hmake', hbuild, hlists⟩
  · obtain ⟨e, he⟩ := make_mem hmake hu
    rw [he] at hfail
    cases hfail
  · obtain rfl := make_unique hmake hmake'
    exact ⟨ts, hbuild, hlists⟩

/-- In a source that does not name the key of reports, no test does. -/
theorem unkeyed_of_parse (h : parse true source = .ok t)
    (hts : (t.build source).outcome = .ok (some (.tests ts))) (hlists : ts.Lists negated es)
    (hname : ∀ k ∈ t.leaves, k.kind = .identifier → k.text ≠ Scope.reportKey)
    (hkeys : Scope.reportKey ∉ t.keys) : ∀ e ∈ es, e.Unkeyed := by
  intro e he
  constructor
  · intro n hn
    have hknown : Known t.keys n := by
      refine names_of_parse h hts n ?_
      rw [← hlists.names]
      exact mem_namesOfItems.2 ⟨e, he, hn⟩
    exact ⟨fun h => hkeys (h ▸ hknown.1), fun h => hkeys (h ▸ hknown.2)⟩
  · intro hbinds
    have hbound : Scope.reportKey ∈ (Artifact.tests ts).binders := by
      rw [← hlists.binders]
      exact mem_bindersOfItems.2 ⟨e, he, hbinds⟩
    obtain ⟨k, hk, hkind, htext⟩ := binders_of_parse h hts _ hbound
    exact hname k hk hkind htext

end Sources

/-- **With reports there is a match exactly if there is one without**, for a source that does not name
the key of reports, if each of its tests is simple or compares the tested value, and this value is neither
zero nor empty. The same calls are made, or the same failure ends both runs; the answer with reports is
the one without or the tested value. A full comparison is matched once more against the tested value, so
for these the value must also equal itself, which a list does not: it is no element of itself. -/
theorem reports_keep_matches (registry c : Fields) (source : String) (t : Tree) (negated : Bool)
    (us : List Tree) (es : List Expr) (v : Value) (h : parse true source = .ok t)
    (htests : t.tests? = some (negated, us)) (hmake : Tree.Make source us es)
    (hname : ∀ k ∈ t.leaves, k.kind = .identifier → k.text ≠ Scope.reportKey)
    (hkeys : Scope.reportKey ∉ t.keys) (hkey : c.get? Scope.reportKey = none)
    (hc : (Value.context c).Quiet) (hregistry : (Value.context registry).Quiet)
    (hv : (Scope.ofFields c).get Scope.inputKey = v ∧ v.isNonzero = true)
    (hes : ∀ e ∈ es, e.isSimple = true ∨ (e.comparesInput || e.decidesInput) = true ∧
      v.verdictOn v = return .boolean true) :
    Run.Related (fun w w' => ((w' ≠ .null ∧ w' ≠ .boolean false) ↔ w = .boolean true) ∧
        (w' = w ∨ w' = v))
      (unaryTest ⟨registry, 0⟩ source c false) (unaryTest ⟨registry, 0⟩ source c true) := by
  obtain ⟨ts, hts, hlists⟩ := build_of_make h htests hmake
  have hunkeyed := unkeyed_of_parse h hts hlists hname hkeys
  rw [unaryTest_of_build h hts, unaryTest_reporting h hts, Scope.get_reporting, hv.1]
  refine (eval_related hregistry (silent_ofFields hc hkey) hv hlists hunkeyed hes).action.mono ?_
  rintro w w' (⟨rfl, _ | _ | _, rfl⟩ | ⟨rfl, rfl⟩)
  · exact ⟨by simp [Value.ofBool?], .inl rfl⟩
  · exact ⟨by simp [Value.ofBool?], .inl rfl⟩
  · exact ⟨by simp [Value.ofBool?], .inl rfl⟩
  · -- the tested value in place of true: it is nonzero, so neither null nor false
    have hnonzero := hv.2
    refine ⟨⟨fun _ => rfl, fun _ => ⟨?_, ?_⟩⟩, .inr rfl⟩
    · rintro rfl
      cases hnonzero
    · rintro rfl
      cases hnonzero

theorem reports_keep_match_of_three : ∃ t, parse true "<5,>9" = .ok t ∧
    unaryTest .standard "<5,>9" [("?", .whole 3)] false = pure (.boolean true) ∧
      Run.Related (fun w w' => ((w' ≠ .null ∧ w' ≠ .boolean false) ↔ w = .boolean true) ∧
          (w' = w ∨ w' = .whole 3))
        (unaryTest .standard "<5,>9" [("?", .whole 3)] false)
        (unaryTest .standard "<5,>9" [("?", .whole 3)] true) := by
  let below : Tree := .node .simplePositiveUnaryTest (some ⟨0, 2⟩)
    [.token ⟨.less, "<", some ⟨0, 1⟩⟩, .token ⟨.number, "5", some ⟨1, 2⟩⟩]
  let above : Tree := .node .simplePositiveUnaryTest (some ⟨3, 5⟩)
    [.token ⟨.greater, ">", some ⟨3, 4⟩⟩, .token ⟨.number, "9", some ⟨4, 5⟩⟩]
  let t : Tree := .node .unaryTests (some ⟨0, 5⟩)
    [.node .positiveUnaryTests (some ⟨0, 5⟩) [below, above]]
  have hparse : parse true "<5,>9" = .ok t := by rfl
  have hmake : Tree.Make "<5,>9" [below, above]
      [.test 0 .less (.number (.whole 5)), .test 3 .greater (.number (.whole 9))] :=
    .cons (by rfl) (.cons (by rfl) .nil)
  refine ⟨t, hparse, by rfl, ?_⟩
  exact reports_keep_matches standardRegistry [("?", .whole 3)] "<5,>9" t false [below, above] _
    (.whole 3) hparse rfl hmake (by decide) (by decide) rfl (Value.carries_context.2 (by simp))
    quiet_standardRegistry ⟨rfl, rfl⟩
    (fun e he => by rcases List.mem_pair.1 he with rfl | rfl <;> exact .inl rfl)

/-- A zero that matches the first test is lost: the second test, which it fails, decides. -/
theorem matched_zero_lost :
    Fields.get? [("?", .whole 0)] Scope.reportKey = none ∧
      unaryTest .standard "<5,>9" [("?", .whole 0)] false = pure (.boolean true) ∧
      unaryTest .standard "<5,>9" [("?", .whole 0)] true = pure (.boolean false) :=
  ⟨by rfl, by rfl, by rfl⟩

end Criterion

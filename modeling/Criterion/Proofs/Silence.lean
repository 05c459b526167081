import Criterion.Proofs.Agreement
import Criterion.Proofs.Binders
import Criterion.Proofs.Quiet

/-!
# Evaluation without reports

Where nothing asks for reports, evaluation makes no probe that reports, as long as no loop binds the key
of reports. A filter may bind it, by a field of an element, but what its condition evaluates to does not
get out.

* `Scope.Silent`: scopes whose values are quiet and that do not ask for reports.
* `loopScopes_silent`, `collect_quiet`: loops go through silent scopes and collect quiet values.
* `Expr.eval_quiet`: **the value of an expression in a silent scope is quiet.**
-/

namespace Criterion

open Value

/-! ## Scopes -/

/-- The values of a scope are quiet, and it does not ask for reports. -/
structure Scope.Silent (s : Scope) : Prop where
  quiet : ∀ n v, s.get? n = some v → v.Quiet
  report : s.get? Scope.reportKey = none

namespace Scope.Silent

variable {s : Scope} {registry : Fields} {v : Value}

theorem reports (h : s.Silent) : s.reports = false := by
  unfold Scope.reports Scope.get
  rw [h.report]
  rfl

theorem carries (h : s.Silent) : s.Carries (·.reports = false) :=
  h.quiet

/-- A layer of quiet values that does not ask for reports. -/
theorem extend (h : s.Silent) {layer : Fields}
    (hlayer : ∀ p ∈ layer, p.2.Quiet ∧ p.1 ≠ Scope.reportKey) : (s.extend layer).Silent := by
  constructor
  · intro n v hv
    rw [Scope.get_extend] at hv
    rcases Option.or_eq_some_iff.1 hv with hv | ⟨-, hv⟩
    · exact (hlayer _ (mem_of_get hv)).1
    · exact h.quiet n v hv
  · rw [Scope.get_extend, h.report, Option.or_none]
    cases hkey : layer.get? Scope.reportKey with
    | none => rfl
    | some v => exact absurd rfl (hlayer _ (mem_of_get hkey)).2

end Scope.Silent

/-! ## Loops and filters -/

section Loops

variable {s : Scope} {v : Value}

/-- A loop over quiet values goes through silent scopes, if it does not bind the key of reports. -/
theorem loopScopes_silent (h : s.Silent) {domains : List (String × List Value)}
    (hdomains : ∀ d ∈ domains, d.1 ≠ Scope.reportKey ∧ ∀ v ∈ d.2, v.Quiet) :
    ∀ t ∈ loopScopes s domains, t.Silent := by
  intro t ht
  obtain ⟨pairs, rfl, -, hpairs⟩ := pairs_of_loopScopes ht
  refine h.extend fun p hp => ?_
  obtain ⟨d, hd, hname, hv⟩ := hpairs p (mem_ofPairs hp)
  exact ⟨(hdomains d hd).2 _ hv, hname ▸ (hdomains d hd).1⟩

/-- The results of a loop are quiet if its body is so in silent scopes. -/
theorem collect_quiet {body : Scope → Eval Value}
    (hbody : ∀ t : Scope, t.Silent → ∀ v, (body t).outcome = .ok v → v.Quiet) {scopes : List Scope}
    (hscopes : ∀ t ∈ scopes, t.Silent) : ∀ {results ws : List Value}, (∀ w ∈ results, w.Quiet) →
      (collect body results scopes).outcome = .ok ws → ∀ w ∈ ws, w.Quiet := by
  induction scopes with
  | nil =>
    intro results ws hresults h
    cases h
    exact hresults
  | cons t rest ih =>
    intro results ws hresults h
    obtain ⟨ht, hrest⟩ := List.forall_mem_cons.1 hscopes
    obtain ⟨v, hv, h⟩ := Run.bind_outcome_ok h
    -- the body sees the results before it, under a key of their own
    have hkey : partialKey ≠ Scope.reportKey := by decide
    have hpartial : (t.extend [(partialKey, .list results)]).Silent :=
      ht.extend (List.forall_mem_singleton.2 ⟨carries_list.2 hresults, hkey⟩)
    have hquiet : ∀ w ∈ results ++ [v], w.Quiet :=
      List.forall_mem_append.2 ⟨hresults, List.forall_mem_singleton.2 (hbody _ hpartial v hv)⟩
    exact ih hrest hquiet h

end Loops

/-! ## Expressions -/

namespace Expr

variable {registry : Fields}

/-- What a comparison answers where nothing asks for reports. -/
theorem quiet_of_answer {s : Scope} {v w : Value} {o : Option Bool} (hs : s.Silent)
    (h : (pure (answer s.reports w o) : Eval Value).outcome = .ok v) : v.Quiet := by
  cases h
  rw [hs.reports, answer_quiet]
  exact quiet_ofBool o

/-- What a connective answers where nothing asks for reports. -/
theorem quiet_of_joined {s : Scope} {v w : Value} (hs : s.Silent)
    (h : (pure (if s.reports then w else .boolean w.isNonzero) : Eval Value).outcome = .ok v) :
    v.Quiet := by
  cases h
  rw [hs.reports]
  exact carries_boolean _

theorem absent_of_append {names more : List String} {n : String} (h : n ∉ names ++ more) :
    n ∉ names ∧ n ∉ more := not_or.1 (mt List.mem_append.2 h)

mutual

/-- **The value of an expression in a silent scope is quiet**, if the registry is so and the expression
does not bind the key of reports. The condition of a filter may be evaluated in a scope that asks for
reports, but a filter keeps elements of what it filters. -/
theorem eval_quiet (hregistry : (Value.context registry).Quiet) : ∀ e : Expr,
    Scope.reportKey ∉ e.binders → ∀ s : Scope, s.Silent →
      ∀ v, (eval registry e s).outcome = .ok v → v.Quiet
  | .null, _, _, _, _, h | .boolean _, _, _, _, _, h | .number _, _, _, _, _, h
  | .text _, _, _, _, _, h | .wildcard, _, _, _, _, h | .procedure, _, _, _, _, h => by
    cases h
    trivial
  | .name n, _, s, hs, v, h => by
    cases h
    exact hs.carries.resolveName hregistry n
  | .registered n, _, s, hs, v, h => by
    cases h
    exact carries_ofOption fun w hw => carries_context.1 hregistry _ (mem_of_get hw)
  | .input, _, s, hs, v, h => by
    cases h
    exact hs.carries.get _
  | .list items, hbinds, s, hs, v, h => by
    obtain ⟨vs, hvs, h⟩ := Run.bind_outcome_ok h
    cases h
    exact carries_list.2 (evalItems_quiet hregistry items hbinds s hs vs hvs)
  | .context entries, hbinds, s, hs, v, h => by
    obtain ⟨pairs, hpairs, h⟩ := Run.bind_outcome_ok h
    cases h
    exact carries_context.2 fun p hp =>
      evalEntries_quiet hregistry entries hbinds s hs pairs hpairs p (mem_ofPairs hp)
  | .unary op a, _, s, hs, v, h => by
    obtain ⟨w, -, h⟩ := Run.bind_outcome_ok h
    cases h
    exact carries_of_flat (arithmetic_flat op _ _)
  | .arithmetic op a b, _, s, hs, v, h => by
    obtain ⟨x, -, h⟩ := Run.bind_outcome_ok h
    obtain ⟨y, -, h⟩ := Run.bind_outcome_ok h
    cases h
    exact carries_of_flat (arithmetic_flat op _ _)
  -- comparisons and connectives are where a scope that asks for reports would be answered with a value
  | .relation op a b, _, s, hs, v, h => by
    obtain ⟨x, -, h⟩ := Run.bind_outcome_ok h
    obtain ⟨y, -, h⟩ := Run.bind_outcome_ok h
    exact quiet_of_answer hs h
  | .between a low high, _, s, hs, v, h => by
    obtain ⟨x, -, h⟩ := Run.bind_outcome_ok h
    obtain ⟨y, -, h⟩ := Run.bind_outcome_ok h
    obtain ⟨z, -, h⟩ := Run.bind_outcome_ok h
    exact quiet_of_answer hs h
  | .member a tests, _, s, hs, v, h => by
    obtain ⟨x, -, h⟩ := Run.bind_outcome_ok h
    obtain ⟨y, -, h⟩ := Run.bind_outcome_ok h
    obtain ⟨found, -, h⟩ := Run.bind_outcome_ok h
    exact quiet_of_answer hs h
  | .disjunction a b, _, s, hs, v, h | .conjunction a b, _, s, hs, v, h => by
    obtain ⟨x, -, h⟩ := Run.bind_outcome_ok h
    obtain ⟨y, -, h⟩ := Run.bind_outcome_ok h
    exact quiet_of_joined hs h
  | .instanceOf a type, _, s, hs, v, h => by
    obtain ⟨x, -, h⟩ := Run.bind_outcome_ok h
    cases h
    exact carries_boolean _
  | .choose condition yes none, hbinds, s, hs, v, h => by
    obtain ⟨c, -, h⟩ := Run.bind_outcome_ok h
    have hyes := (absent_of_append hbinds).2
    split at h
    · exact eval_quiet hregistry yes hyes s hs v h
    · cases h
      exact carries_null
  | .choose condition yes (some no), hbinds, s, hs, v, h => by
    obtain ⟨c, -, h⟩ := Run.bind_outcome_ok h
    obtain ⟨hbinds, hno⟩ := absent_of_append hbinds
    have hyes := (absent_of_append hbinds).2
    split at h
    · exact eval_quiet hregistry yes hyes s hs v h
    · exact eval_quiet hregistry no hno s hs v h
  | .loop bindings body, hbinds, s, hs, v, h => by
    -- the body runs in scopes that are silent again, since no name of the loop is the key of reports
    obtain ⟨hbinds, hbody⟩ := absent_of_append hbinds
    obtain ⟨hnames, hbindings⟩ := absent_of_append hbinds
    obtain ⟨domains, hdomains, h⟩ := Run.bind_outcome_ok h
    obtain ⟨ws, hws, h⟩ := Run.bind_outcome_ok h
    cases h
    have hscopes := loopScopes_silent hs
      (evalDomains_quiet hregistry bindings hnames hbindings s hs domains hdomains)
    have hbodies := eval_quiet hregistry body hbody
    exact carries_list.2 (collect_quiet hbodies hscopes (List.forall_mem_nil _) hws)
  | .quantified q bindings condition, _, s, hs, v, h => by
    obtain ⟨domains, -, h⟩ := Run.bind_outcome_ok h
    obtain ⟨b, -, h⟩ := Run.bind_outcome_ok h
    cases h
    exact carries_boolean _
  | .range a b, _, s, hs, v, h => by
    obtain ⟨x, -, h⟩ := Run.bind_outcome_ok h
    obtain ⟨y, -, h⟩ := Run.bind_outcome_ok h
    obtain ⟨items, -, h⟩ := Run.bind_outcome_ok h
    cases h
    exact carries_list.2 (List.forall_mem_map.2 fun i _ => carries_whole i)
  | .call source callee arguments, hbinds, s, hs, v, h => by
    have harguments := (absent_of_append hbinds).2
    obtain ⟨f, -, h⟩ := Run.bind_outcome_ok h
    split at h
    · cases h
    · obtain ⟨vs, hvs, h⟩ := Run.bind_outcome_ok h
      exact call_carries (evalItems_quiet hregistry arguments harguments s hs vs hvs) h
  | .path target field, hbinds, s, hs, v, h => by
    obtain ⟨w, hw, h⟩ := Run.bind_outcome_ok h
    cases h
    exact fieldOrFields_carries (eval_quiet hregistry target hbinds s hs w hw) field
  | .filter target condition, hbinds, s, hs, v, h => by
    obtain ⟨w, hw, h⟩ := Run.bind_outcome_ok h
    have htarget := (absent_of_append hbinds).1
    exact select_carries (eval_quiet hregistry target htarget s hs w hw) h
  | .test site op operand, _, s, hs, v, h => by
    cases h
    exact hs.reports
  | .interval site includesStart start stop includesStop, _, s, hs, v, h => by
    obtain ⟨x, -, h⟩ := Run.bind_outcome_ok h
    obtain ⟨y, -, h⟩ := Run.bind_outcome_ok h
    cases h
    exact hs.reports

theorem evalItems_quiet (hregistry : (Value.context registry).Quiet) : ∀ items : List Expr,
    Scope.reportKey ∉ bindersOfItems items → ∀ s : Scope, s.Silent →
      ∀ vs, (evalItems registry items s).outcome = .ok vs → ∀ v ∈ vs, v.Quiet
  | [], _, _, _, _, h => by
    cases h
    exact List.forall_mem_nil _
  | e :: rest, hbinds, s, hs, vs, h => by
    obtain ⟨he, hrest⟩ := absent_of_append hbinds
    obtain ⟨w, hw, h⟩ := Run.bind_outcome_ok h
    obtain ⟨ws, hws, h⟩ := Run.bind_outcome_ok h
    cases h
    exact List.forall_mem_cons.2
      ⟨eval_quiet hregistry e he s hs w hw, evalItems_quiet hregistry rest hrest s hs ws hws⟩

theorem evalEntries_quiet (hregistry : (Value.context registry).Quiet) :
    ∀ entries : List (String × Expr), Scope.reportKey ∉ bindersOfEntries entries →
      ∀ s : Scope, s.Silent → ∀ pairs, (evalEntries registry entries s).outcome = .ok pairs →
        ∀ p ∈ pairs, p.2.Quiet
  | [], _, _, _, _, h => by
    cases h
    exact List.forall_mem_nil _
  | (key, e) :: rest, hbinds, s, hs, pairs, h => by
    obtain ⟨he, hrest⟩ := absent_of_append hbinds
    obtain ⟨w, hw, h⟩ := Run.bind_outcome_ok h
    obtain ⟨others, hothers, h⟩ := Run.bind_outcome_ok h
    cases h
    exact List.forall_mem_cons.2 ⟨eval_quiet hregistry e he s hs w hw,
      evalEntries_quiet hregistry rest hrest s hs others hothers⟩

/-- The lists of a loop have quiet elements, and the names of the loop are those that it binds. -/
theorem evalDomains_quiet (hregistry : (Value.context registry).Quiet) :
    ∀ bindings : List (String × Expr), Scope.reportKey ∉ bindings.map (·.1) →
      Scope.reportKey ∉ bindersOfEntries bindings → ∀ s : Scope, s.Silent →
        ∀ domains, (evalDomains registry bindings s).outcome = .ok domains →
          ∀ d ∈ domains, d.1 ≠ Scope.reportKey ∧ ∀ v ∈ d.2, v.Quiet
  | [], _, _, _, _, _, h => by
    cases h
    exact List.forall_mem_nil _
  | (key, e) :: rest, hnames, hbinds, s, hs, domains, h => by
    obtain ⟨hkey, hnames⟩ := List.ne_and_not_mem_of_not_mem_cons hnames
    obtain ⟨he, hrest⟩ := absent_of_append hbinds
    obtain ⟨w, hw, h⟩ := Run.bind_outcome_ok h
    obtain ⟨items, hitems, h⟩ := Run.bind_outcome_ok h
    obtain ⟨others, hothers, h⟩ := Run.bind_outcome_ok h
    cases h
    have hw := eval_quiet hregistry e he s hs w hw
    obtain rfl := domainOf_ok hitems
    exact List.forall_mem_cons.2 ⟨⟨Ne.symm hkey, carries_list.1 hw⟩,
      evalDomains_quiet hregistry rest hnames hrest s hs others hothers⟩

end

end Expr

end Criterion

import Criterion.Proofs.Deeds
import Criterion.Proofs.Relevance
import Criterion.Proofs.Verdicts

/-!
# Which failures are fatal

The failures that are announced to the user end an evaluation. Besides them an evaluation can only end at
a limit of numbers or in a call that does not fit, and only where the source has a form that can meet it:
a call, an interval, a filter by position, a range or a loop over a bad value, or an integer with too many
digits.

* `Expr.limits`: the failures without an announcement that an expression may meet, told by its form.
* `Expr.eval_ends`: **the evaluation of an expression fails only so**, and makes only probes that do.
* `failures_documented`: so do both entries, for every source and every context of data.
* `infinite_floor_overflows`: a source that meets a limit.
-/

namespace Criterion

/-! ## The limits of an expression -/

namespace Expr

mutual

/-- The failures without an announcement that an expression may meet. -/
def limits : Expr → List Failure
  | .list items => limitsOfItems items
  | .context entries => limitsOfEntries entries
  | .unary _ a | .instanceOf a _ | .path a _ | .test _ _ a => a.limits
  | .arithmetic _ a b | .relation _ a b | .member a b | .disjunction a b | .conjunction a b =>
    a.limits ++ b.limits
  | .between a b c | .choose a b (some c) => a.limits ++ b.limits ++ c.limits
  | .choose a b none => a.limits ++ b.limits
  | .loop bindings body | .quantified _ bindings body =>
    .tooManyDigits :: (limitsOfEntries bindings ++ body.limits)
  | .range a b => .tooManyDigits :: (a.limits ++ b.limits)
  | .call _ callee arguments => callLimits ++ (callee.limits ++ limitsOfItems arguments)
  | .filter a b =>
    (if b.tag = some .number then [.overflow, .notANumber] else []) ++ (a.limits ++ b.limits)
  | .interval _ _ a b _ => .overflow :: (a.limits ++ b.limits)
  | _ => []

def limitsOfItems : List Expr → List Failure
  | [] => []
  | e :: rest => e.limits ++ limitsOfItems rest

def limitsOfEntries : List (String × Expr) → List Failure
  | [] => []
  | (_, e) :: rest => e.limits ++ limitsOfEntries rest

end

end Expr

/-- The failures of a computation whose form tells its limits: those that are announced and the limits. -/
structure Allowed (registry : Fields) (R : Failure → Prop) : Prop where
  documented : ∀ f : Failure, f.Documented → R f
  registry : (Value.context registry).Carries (·.FailsAs R)

/-! ## Loops and filters -/

section Loops

variable {R : Failure → Prop}

/-- The values of an evaluation whose probes fail only in ways that are allowed. -/
abbrev EndsWell (R : Failure → Prop) (r : Eval Value) : Prop :=
  Ends R (·.Carries (·.FailsAs R)) r.outcome

/-- So are all evaluations of a body in scopes that carry such probes. -/
abbrev BodyEnds (R : Failure → Prop) (body : Scope → Eval Value) : Prop :=
  ∀ s : Scope, s.Carries (·.FailsAs R) → EndsWell R (body s)

variable {body : Scope → Eval Value} {s : Scope}

theorem collect_ends (hbody : BodyEnds R body) {scopes : List Scope}
    (hscopes : ∀ t ∈ scopes, t.Carries (·.FailsAs R)) : ∀ {results : List Value},
      (∀ w ∈ results, w.Carries (·.FailsAs R)) →
        Ends R (fun ws => ∀ w ∈ ws, w.Carries (·.FailsAs R)) (collect body results scopes).outcome := by
  induction scopes with
  | nil => exact fun hresults => .ok hresults
  | cons t rest ih =>
    intro results hresults
    obtain ⟨ht, hrest⟩ := List.forall_mem_cons.1 hscopes
    have hpartial : (t.extend [(partialKey, .list results)]).Carries (·.FailsAs R) :=
      ht.extend (List.forall_mem_singleton.2 (Value.carries_list.2 hresults))
    refine (hbody _ hpartial).bind fun v hv => ih hrest ?_
    exact List.forall_mem_append.2 ⟨hresults, List.forall_mem_singleton.2 hv⟩

theorem decideQuantifier_ends (hbody : BodyEnds R body) (q : Quantifier) {scopes : List Scope}
    (hscopes : ∀ t ∈ scopes, t.Carries (·.FailsAs R)) :
    Ends R (fun _ => True) (decideQuantifier q body scopes).outcome := by
  induction scopes with
  | nil => exact .ok trivial
  | cons t rest ih =>
    obtain ⟨ht, hrest⟩ := List.forall_mem_cons.1 hscopes
    refine (hbody t ht).bind fun v _ => ?_
    cases q with
    | every =>
      dsimp only
      split
      · exact ih hrest
      · exact .ok trivial
    | some =>
      dsimp only
      split
      · exact .ok trivial
      · exact ih hrest

theorem selectWhere_fails (hbody : BodyEnds R body) (hs : s.Carries (·.FailsAs R))
    {items : List Value} (hitems : ∀ w ∈ items, w.Carries (·.FailsAs R)) :
    FailsAs R (selectWhere body s items).outcome := by
  induction items with
  | nil => exact .ok _
  | cons item rest ih =>
    obtain ⟨hitem, hrest⟩ := List.forall_mem_cons.1 hitems
    have hscope : (s.extend item.itemLayer).Carries (·.FailsAs R) :=
      hs.extend (itemLayer_carries hitem)
    have hothers : ∀ holds : Value, FailsAs R (do
        let others ← selectWhere body s rest
        return if holds.isTrue then item :: others else others : Eval (List Value)).outcome :=
      fun holds => (ih hrest).bindRun fun _ _ => .ok _
    unfold selectWhere
    refine (hbody _ hscope).fails.bindRun fun outcome houtcome => ?_
    -- the answer may be a test, which is then asked about the element
    have hanswer := (hbody _ hscope).gives outcome houtcome
    dsimp only
    split
    · exact FailsAs.bindRun (hanswer item) fun holds _ => hothers holds
    · exact FailsAs.bindRun (.ok _) fun holds _ => hothers holds

/-- A filter fails as its condition does, or at a position that has no integer. -/
theorem select_fails (hbody : BodyEnds R body) (hs : s.Carries (·.FailsAs R)) {target : Value}
    (htarget : target.Carries (·.FailsAs R)) {tag : Option Tag}
    (hposition : tag = some .number → R .overflow ∧ R .notANumber) :
    FailsAs R (select target tag body s).outcome := by
  have helements := elements_carries htarget
  unfold select
  split
  · exact .ok _
  split
  · refine (hbody s hs).fails.bindRun fun position _ => ?_
    exact atPosition_fails (hposition rfl).1 (hposition rfl).2 _ _
  · exact (hbody s hs).fails.bindRun fun _ _ => .ok _
  · exact (hbody s hs).fails.bindRun fun _ _ => .ok _
  · exact (selectWhere_fails hbody hs helements).bindRun fun _ _ => .ok _

end Loops

/-! ## Expressions -/

namespace Expr

variable {registry : Fields} {R : Failure → Prop}

theorem limits_append {fs gs : List Failure} (h : ∀ f ∈ fs ++ gs, R f) :
    (∀ f ∈ fs, R f) ∧ ∀ f ∈ gs, R f := List.forall_mem_append.1 h

mutual

/-- **The evaluation of an expression fails only in ways that are announced or that its form tells**, if
that is so for the probes in its scope; and so do the probes that it makes. -/
theorem eval_ends (hR : Allowed registry R) : ∀ e : Expr, (∀ f ∈ e.limits, R f) →
    ∀ s : Scope, s.Carries (·.FailsAs R) → EndsWell R (eval registry e s)
  | .null, _, _, _ | .boolean _, _, _, _ | .number _, _, _, _ | .text _, _, _, _
  | .wildcard, _, _, _ | .procedure, _, _, _ => .ok trivial
  | .name n, _, s, hs => .ok (hs.resolveName hR.registry n)
  | .registered n, _, s, hs =>
    .ok (Value.carries_ofOption fun w hw => Value.carries_context.1 hR.registry _ (mem_of_get hw))
  | .input, _, s, hs => .ok (hs.get _)
  | .list items, h, s, hs =>
    (evalItems_ends hR items h s hs).bind fun vs hvs => .ok (Value.carries_list.2 hvs)
  | .context entries, h, s, hs =>
    (evalEntries_ends hR entries h s hs).bind fun pairs hpairs =>
      .ok (Value.carries_context.2 fun p hp => hpairs p (mem_ofPairs hp))
  | .unary op a, h, s, hs => (eval_ends hR a h s hs).bind fun v _ => .ok (Value.carries_of_flat (arithmetic_flat op _ v))
  | .arithmetic op a b, h, s, hs => by
    obtain ⟨ha, hb⟩ := limits_append h
    exact (eval_ends hR a ha s hs).bind fun v _ =>
      (eval_ends hR b hb s hs).bind fun w _ => .ok (Value.carries_of_flat (arithmetic_flat op v w))
  | .relation op a b, h, s, hs => by
    obtain ⟨ha, hb⟩ := limits_append h
    exact (eval_ends hR a ha s hs).bind fun v hv =>
      (eval_ends hR b hb s hs).bind fun w _ => .ok (answer_carries hv _ _)
  | .between a low high, h, s, hs => by
    obtain ⟨h, hhigh⟩ := limits_append h
    obtain ⟨ha, hlow⟩ := limits_append h
    exact (eval_ends hR a ha s hs).bind fun v hv =>
      (eval_ends hR low hlow s hs).bind fun _ _ =>
        (eval_ends hR high hhigh s hs).bind fun _ _ => .ok (answer_carries hv _ _)
  | .member a tests, h, s, hs => by
    obtain ⟨ha, htests⟩ := limits_append h
    exact (eval_ends hR a ha s hs).bind fun v hv =>
      (eval_ends hR tests htests s hs).bind fun t ht =>
        Ends.bind ⟨passesAny_fails v (elements_carries ht), fun _ _ => trivial⟩
          fun _ _ => .ok (answer_carries hv _ _)
  | .disjunction a b, h, s, hs | .conjunction a b, h, s, hs => by
    obtain ⟨ha, hb⟩ := limits_append h
    refine (eval_ends hR a ha s hs).bind fun v hv => (eval_ends hR b hb s hs).bind fun w hw => .ok ?_
    -- where reports are asked for the answer is one of the operands
    split
    · split <;> assumption
    · exact Value.carries_boolean _
  | .instanceOf a type, h, s, hs =>
    (eval_ends hR a h s hs).bind fun _ _ => .ok (Value.carries_boolean _)
  | .choose condition yes none, h, s, hs => by
    obtain ⟨hcondition, hyes⟩ := limits_append h
    refine (eval_ends hR condition hcondition s hs).bind fun c _ => ?_
    split
    · exact eval_ends hR yes hyes s hs
    · exact .ok Value.carries_null
  | .choose condition yes (some no), h, s, hs => by
    obtain ⟨h, hno⟩ := limits_append h
    obtain ⟨hcondition, hyes⟩ := limits_append h
    refine (eval_ends hR condition hcondition s hs).bind fun c _ => ?_
    split
    · exact eval_ends hR yes hyes s hs
    · exact eval_ends hR no hno s hs
  | .loop bindings body, h, s, hs => by
    obtain ⟨hdigits, h⟩ := List.forall_mem_cons.1 h
    obtain ⟨hbindings, hbody⟩ := limits_append h
    refine (evalDomains_ends hR hdigits bindings hbindings s hs).bind fun domains hdomains => ?_
    have hscopes := loopScopes_carries hs hdomains
    have hresults := collect_ends (eval_ends hR body hbody) hscopes (List.forall_mem_nil _)
    exact hresults.bind fun ws hws => .ok (Value.carries_list.2 hws)
  | .quantified q bindings condition, h, s, hs => by
    obtain ⟨hdigits, h⟩ := List.forall_mem_cons.1 h
    obtain ⟨hbindings, hcondition⟩ := limits_append h
    refine (evalDomains_ends hR hdigits bindings hbindings s hs).bind fun domains hdomains => ?_
    have hscopes := loopScopes_carries hs hdomains
    exact (decideQuantifier_ends (eval_ends hR condition hcondition) q hscopes).bind fun _ _ =>
      .ok (Value.carries_boolean _)
  | .range a b, h, s, hs => by
    obtain ⟨hdigits, h⟩ := List.forall_mem_cons.1 h
    obtain ⟨ha, hb⟩ := limits_append h
    refine (eval_ends hR a ha s hs).bind fun v _ => (eval_ends hR b hb s hs).bind fun w _ => ?_
    have hrange : Ends R (fun _ => True) (v.range w) :=
      ⟨range_fails hR.documented hdigits v w, fun _ _ => trivial⟩
    exact Ends.bind hrange fun items _ =>
      .ok (Value.carries_list.2 (List.forall_mem_map.2 fun i _ => Value.carries_whole i))
  | .call source callee arguments, h, s, hs => by
    obtain ⟨hlimits, h⟩ := limits_append h
    obtain ⟨hcallee, harguments⟩ := limits_append h
    refine (eval_ends hR callee hcallee s hs).bind fun f hf => ?_
    split
    · exact .error (hR.documented _ rfl)
    · refine (evalItems_ends hR arguments harguments s hs).bind fun vs hvs => ?_
      exact ⟨call_fails hR.documented hlimits hf vs, fun v hv => call_carries hvs hv⟩
  | .path target field, h, s, hs =>
    (eval_ends hR target h s hs).bind fun v hv => .ok (fieldOrFields_carries hv field)
  | .filter target condition, h, s, hs => by
    obtain ⟨hposition, h⟩ := limits_append h
    obtain ⟨htarget, hcondition⟩ := limits_append h
    refine (eval_ends hR target htarget s hs).bind fun v hv => ?_
    have hlimits : condition.tag = some .number → R .overflow ∧ R .notANumber := by
      intro htag
      rw [if_pos htag] at hposition
      exact ⟨hposition _ (by decide), hposition _ (by decide)⟩
    exact ⟨select_fails (eval_ends hR condition hcondition) hs hv hlimits,
      fun w hw => select_carries hv hw⟩
  -- the two forms that make a probe
  | .test site op operand, h, s, hs => .ok (relation_fails (eval_ends hR operand h s hs).fails)
  | .interval site includesStart start stop includesStop, h, s, hs => by
    obtain ⟨hoverflow, h⟩ := List.forall_mem_cons.1 h
    obtain ⟨hstart, hstop⟩ := limits_append h
    exact (eval_ends hR start hstart s hs).bind fun v _ =>
      (eval_ends hR stop hstop s hs).bind fun w _ => .ok (interval_fails hoverflow site _ _)

theorem evalItems_ends (hR : Allowed registry R) : ∀ items : List Expr,
    (∀ f ∈ limitsOfItems items, R f) → ∀ s : Scope, s.Carries (·.FailsAs R) →
      Ends R (fun vs => ∀ v ∈ vs, v.Carries (·.FailsAs R)) (evalItems registry items s).outcome
  | [], _, _, _ => .ok (List.forall_mem_nil _)
  | e :: rest, h, s, hs => by
    obtain ⟨he, hrest⟩ := limits_append h
    exact (eval_ends hR e he s hs).bind fun v hv =>
      (evalItems_ends hR rest hrest s hs).bind fun vs hvs =>
        .ok (List.forall_mem_cons.2 ⟨hv, hvs⟩)

theorem evalEntries_ends (hR : Allowed registry R) : ∀ entries : List (String × Expr),
    (∀ f ∈ limitsOfEntries entries, R f) → ∀ s : Scope, s.Carries (·.FailsAs R) →
      Ends R (fun pairs => ∀ p ∈ pairs, p.2.Carries (·.FailsAs R))
        (evalEntries registry entries s).outcome
  | [], _, _, _ => .ok (List.forall_mem_nil _)
  | (key, e) :: rest, h, s, hs => by
    obtain ⟨he, hrest⟩ := limits_append h
    exact (eval_ends hR e he s hs).bind fun v hv =>
      (evalEntries_ends hR rest hrest s hs).bind fun others hothers =>
        .ok (List.forall_mem_cons.2 ⟨hv, hothers⟩)

/-- A loop's name may range over a value that is no list and cannot be shown. -/
theorem evalDomains_ends (hR : Allowed registry R) (hdigits : R .tooManyDigits) :
    ∀ bindings : List (String × Expr), (∀ f ∈ limitsOfEntries bindings, R f) →
      ∀ s : Scope, s.Carries (·.FailsAs R) →
        Ends R (fun domains => ∀ d ∈ domains, ∀ v ∈ d.2, v.Carries (·.FailsAs R))
          (evalDomains registry bindings s).outcome
  | [], _, _, _ => .ok (List.forall_mem_nil _)
  | (key, e) :: rest, h, s, hs => by
    obtain ⟨he, hrest⟩ := limits_append h
    refine (eval_ends hR e he s hs).bind fun v hv => ?_
    have hdomain : Ends R (fun items => ∀ w ∈ items, w.Carries (·.FailsAs R)) (domainOf key v) := by
      refine ⟨domainOf_fails hR.documented hdigits key v, fun items hitems => ?_⟩
      obtain rfl := domainOf_ok hitems
      exact Value.carries_list.1 hv
    exact Ends.bind hdomain fun items hitems =>
      (evalDomains_ends hR hdigits rest hrest s hs).bind fun others hothers =>
        .ok (List.forall_mem_cons.2 ⟨hitems, hothers⟩)

end

end Expr

/-! ## Unary tests -/

namespace UnaryTests

variable {registry : Fields} {R : Failure → Prop} {v w : Value}

theorem outcomeOf_fails (hw : w.Carries (·.FailsAs R)) : FailsAs R (outcomeOf w v).outcome := by
  cases w with
  | probe p => exact hw v
  | _ => exact .ok _

theorem outcomeOfElement_fails (hw : w.Carries (·.FailsAs R)) :
    FailsAs R (outcomeOfElement w v).outcome := by
  cases w with
  | list items => exact .ok _
  | _ => exact outcomeOf_fails hw

theorem outcomeOfElements_fails {ws : List Value} (hws : ∀ w ∈ ws, w.Carries (·.FailsAs R)) :
    ∀ soFar, FailsAs R (outcomeOfElements v soFar ws).outcome := by
  induction ws with
  | nil => exact fun _ => .ok _
  | cons w ws ih =>
    intro soFar
    obtain ⟨hw, hrest⟩ := List.forall_mem_cons.1 hws
    exact (outcomeOfElement_fails hw).bindRun fun o _ => ih hrest _

theorem outcome_fails (hw : w.Carries (·.FailsAs R)) : FailsAs R (outcome w v).outcome := by
  cases w with
  | list items => exact outcomeOfElements_fails (Value.carries_list.1 hw) none
  | _ => exact (outcomeOf_fails hw).bindRun fun _ _ => .ok _

theorem outcomes_fails (hR : Allowed registry R) {scope : Scope} (hs : scope.Carries (·.FailsAs R)) :
    ∀ (tests : List Expr) (soFar : Option Value), (∀ f ∈ Expr.limitsOfItems tests, R f) →
      FailsAs R (outcomes registry scope v soFar tests).outcome := by
  intro tests
  induction tests with
  | nil => exact fun _ _ => .ok _
  | cons test rest ih =>
    intro soFar h
    obtain ⟨htest, hrest⟩ := Expr.limits_append h
    have heval := Expr.eval_ends hR test htest scope hs
    refine heval.fails.bindRun fun result hresult => ?_
    exact (outcome_fails (heval.gives result hresult)).bindRun fun next _ => ih _ hrest

/-- A list of tests fails as its tests do. -/
theorem eval_fails (hR : Allowed registry R) {scope : Scope} (hs : scope.Carries (·.FailsAs R))
    (ts : UnaryTests) (h : ∀ f ∈ Expr.limitsOfItems ts.tests, R f) :
    FailsAs R (ts.eval registry scope v).outcome := by
  unfold eval
  refine (outcomes_fails hR hs ts.tests none h).bindRun fun o _ => ?_
  split <;> exact .ok _

end UnaryTests

/-! ## Sources -/

/-- The limits of what a tree is built into. -/
def Artifact.limits : Artifact → List Failure
  | .expr e => e.limits
  | .tests ts => Expr.limitsOfItems ts.tests
  | _ => []

/-- A source may meet a limit: it has an integer with too many digits, or a form that tells the limit. -/
def MeetsLimit (unary : Bool) (source : String) (f : Failure) : Prop :=
  ∃ t, parse unary source = .ok t ∧
    ((f = .tooManyDigits ∧ ∃ k ∈ t.leaves, k.TooLong) ∨
      ∃ a, (t.build source).outcome = .ok (some a) ∧ f ∈ a.limits)

namespace Expr

mutual

/-- The limits of an expression are limits of numbers and of calls. -/
theorem limits_subset : ∀ e : Expr, e.limits ⊆ callLimits
  | .list items => limitsOfItems_subset items
  | .context entries => limitsOfEntries_subset entries
  | .unary _ a | .instanceOf a _ | .path a _ | .test _ _ a => limits_subset a
  | .arithmetic _ a b | .relation _ a b | .member a b | .disjunction a b | .conjunction a b
  | .choose a b none => List.append_subset.2 ⟨limits_subset a, limits_subset b⟩
  | .between a b c | .choose a b (some c) =>
    List.append_subset.2 ⟨List.append_subset.2 ⟨limits_subset a, limits_subset b⟩, limits_subset c⟩
  | .loop bindings body | .quantified _ bindings body =>
    List.cons_subset.2 ⟨by decide,
      List.append_subset.2 ⟨limitsOfEntries_subset bindings, limits_subset body⟩⟩
  | .range a b | .interval _ _ a b _ =>
    List.cons_subset.2 ⟨by decide, List.append_subset.2 ⟨limits_subset a, limits_subset b⟩⟩
  | .call _ callee arguments =>
    List.append_subset.2 ⟨List.Subset.refl _,
      List.append_subset.2 ⟨limits_subset callee, limitsOfItems_subset arguments⟩⟩
  | .filter a b => by
    refine List.append_subset.2 ⟨?_, List.append_subset.2 ⟨limits_subset a, limits_subset b⟩⟩
    split
    · decide
    · exact List.nil_subset _
  | .null | .boolean _ | .number _ | .text _ | .wildcard | .name _ | .registered _ | .input
  | .procedure => List.nil_subset _

theorem limitsOfItems_subset : ∀ items : List Expr, limitsOfItems items ⊆ callLimits
  | [] => List.nil_subset _
  | e :: rest => List.append_subset.2 ⟨limits_subset e, limitsOfItems_subset rest⟩

theorem limitsOfEntries_subset : ∀ entries : List (String × Expr),
    limitsOfEntries entries ⊆ callLimits
  | [] => List.nil_subset _
  | (_, e) :: rest => List.append_subset.2 ⟨limits_subset e, limitsOfEntries_subset rest⟩

end

end Expr

/-- Where values may not tell the answer there is a call, which may meet all limits of calls. -/
def CallsIfBeyond (limits : List Failure) : Prop := .beyond ∈ limits → callLimits ⊆ limits

namespace CallsIfBeyond

variable {xs ys : List Failure} {f : Failure}

theorem nil : CallsIfBeyond [] := fun h => absurd h List.not_mem_nil

theorem append (hxs : CallsIfBeyond xs) (hys : CallsIfBeyond ys) : CallsIfBeyond (xs ++ ys) := by
  intro h
  rcases List.mem_append.1 h with h | h
  · exact List.subset_append_of_subset_left _ (hxs h)
  · exact List.subset_append_of_subset_right _ (hys h)

theorem cons (hf : f ≠ .beyond) (hxs : CallsIfBeyond xs) : CallsIfBeyond (f :: xs) := by
  intro h
  have hrest := (List.mem_cons.1 h).resolve_left (Ne.symm hf)
  exact List.subset_cons_of_subset _ (hxs hrest)

end CallsIfBeyond

namespace Expr

mutual

theorem callsIfBeyond : ∀ e : Expr, CallsIfBeyond e.limits
  | .list items => callsIfBeyond_items items
  | .context entries => callsIfBeyond_entries entries
  | .unary _ a | .instanceOf a _ | .path a _ | .test _ _ a => callsIfBeyond a
  | .arithmetic _ a b | .relation _ a b | .member a b | .disjunction a b | .conjunction a b
  | .choose a b none => (callsIfBeyond a).append (callsIfBeyond b)
  | .between a b c | .choose a b (some c) =>
    ((callsIfBeyond a).append (callsIfBeyond b)).append (callsIfBeyond c)
  | .loop bindings body | .quantified _ bindings body =>
    .cons (by decide) ((callsIfBeyond_entries bindings).append (callsIfBeyond body))
  | .range a b | .interval _ _ a b _ => .cons (by decide) ((callsIfBeyond a).append (callsIfBeyond b))
  | .call _ callee arguments => fun _ => List.subset_append_left _ _
  | .filter a b => by
    refine .append ?_ ((callsIfBeyond a).append (callsIfBeyond b))
    split
    · exact .cons (by decide) (.cons (by decide) .nil)
    · exact .nil
  | .null | .boolean _ | .number _ | .text _ | .wildcard | .name _ | .registered _ | .input
  | .procedure => .nil

theorem callsIfBeyond_items : ∀ items : List Expr, CallsIfBeyond (limitsOfItems items)
  | [] => .nil
  | e :: rest => (callsIfBeyond e).append (callsIfBeyond_items rest)

theorem callsIfBeyond_entries : ∀ entries : List (String × Expr), CallsIfBeyond (limitsOfEntries entries)
  | [] => .nil
  | (_, e) :: rest => (callsIfBeyond e).append (callsIfBeyond_entries rest)

end

end Expr

/-- A source that may end where values do not tell how it goes on may meet all limits of calls. -/
theorem MeetsLimit.of_beyond {unary : Bool} {source : String} (h : MeetsLimit unary source .beyond)
    {f : Failure} (hf : f ∈ callLimits) : MeetsLimit unary source f := by
  obtain ⟨t, ht, ⟨hdigits, -⟩ | ⟨a, ha, hmem⟩⟩ := h
  · cases hdigits
  · refine ⟨t, ht, .inr ⟨a, ha, ?_⟩⟩
    cases a with
    | expr e => exact e.callsIfBeyond hmem hf
    | tests ts => exact Expr.callsIfBeyond_items ts.tests hmem hf
    | _ => exact absurd hmem List.not_mem_nil

/-- The failures of a source: those that are announced, and limits that it meets. -/
def Fatal (unary : Bool) (source : String) (f : Failure) : Prop :=
  f.Documented ∨ (f ∈ callLimits ∧ MeetsLimit unary source f)

/-- A value without probes, in any depth. -/
def Value.Data (v : Value) : Prop := v.Carries fun _ => False

section Sources

variable {unary : Bool} {source : String} {t : Tree} {bindings : Fields}

theorem parse_fails (unary : Bool) (source : String) : FailsAs (Fatal unary source) (parse unary source) := by
  intro f hf
  obtain ⟨start, rfl⟩ := parse_eq_error hf
  exact .inl rfl

/-- Building fails only if an integer has too many digits. -/
theorem build_fails (h : parse unary source = .ok t) :
    FailsAs (Fatal unary source) (t.build source).outcome := by
  have hlong := build_error_of_parse h
  have hshort := build_ok_of_parse h
  intro f hf
  by_cases hk : ∃ k ∈ t.leaves, k.TooLong
  · have herror : f = .tooManyDigits := Except.error.inj (hf.symm.trans (hlong hk))
    rw [herror]
    exact .inr ⟨by decide, t, h, .inl ⟨rfl, hk⟩⟩
  · obtain ⟨a, ha, -⟩ := hshort fun k hmem hlong => hk ⟨k, hmem, hlong⟩
    rw [ha] at hf
    cases hf

/-- Where data is evaluated with the builtins, the failures are those that the form tells. -/
theorem allowed_standard {R : Failure → Prop} (hdocumented : ∀ f : Failure, f.Documented → R f) :
    Allowed standardRegistry R :=
  ⟨hdocumented, Value.carries_context.2 (List.forall_mem_map.2 fun _ _ => trivial)⟩

/-- A context of data makes a scope without probes. -/
theorem carries_ofFields (h : (Value.context bindings).Data) (P : Probe Value → Prop) :
    (Scope.ofFields bindings).Carries P := by
  intro n v hv
  rw [get_ofFields] at hv
  have hdata := Value.carries_context.1 h _ (mem_of_get hv)
  exact Value.Carries.mono (fun p hp => hp.elim) v hdata

theorem fatal_of_limits (h : parse unary source = .ok t) {a : Artifact}
    (ha : (t.build source).outcome = .ok (some a)) (hlimits : a.limits ⊆ callLimits) {f : Failure}
    (hf : f.Documented ∨ f ∈ a.limits) : Fatal unary source f :=
  hf.imp_right fun hf => ⟨hlimits hf, t, h, .inr ⟨a, ha, hf⟩⟩

/-- What is built is never nothing. -/
theorem built_of_parse (h : parse unary source = .ok t) {made : Option Artifact}
    (hmade : (t.build source).outcome = .ok made) : ∃ a, made = some a := by
  have hlong := build_error_of_parse h
  have hshort := build_ok_of_parse h
  by_cases hk : ∃ k ∈ t.leaves, k.TooLong
  · rw [hlong hk] at hmade
    cases hmade
  · obtain ⟨a, ha, -⟩ := hshort fun k hmem hlong => hk ⟨k, hmem, hlong⟩
    rw [ha] at hmade
    exact ⟨a, (Except.ok.inj hmade).symm⟩

theorem evaluate_fails (h : (Value.context bindings).Data) (source : String) :
    FailsAs (Fatal false source) (evaluate .standard source bindings).outcome := by
  unfold evaluate
  refine FailsAs.bindRun (.ok _) fun _ _ => ?_
  refine FailsAs.bindRun (parse_fails false source) fun t ht => ?_
  refine FailsAs.bindRun (build_fails ht) fun made hmade => ?_
  obtain ⟨a, rfl⟩ := built_of_parse ht hmade
  obtain ⟨es, rfl⟩ : ∃ es, a = .expr (.list es) := stands_of_build ht hmade
  have heval := Expr.eval_ends (R := fun f => f.Documented ∨ f ∈ (Expr.list es).limits)
    (allowed_standard fun f hf => .inl hf) (.list es) (fun f hf => .inr hf) _ (carries_ofFields h _)
  refine FailsAs.bindRun (heval.fails.mono fun f hf => ?_) fun v _ => .ok _
  exact fatal_of_limits ht hmade (Expr.limits_subset _) hf

theorem unaryTest_fails (h : (Value.context bindings).Data) (source : String) (reports : Bool) :
    FailsAs (Fatal true source) (unaryTest .standard source bindings reports).outcome := by
  unfold unaryTest
  refine FailsAs.bindRun (.ok _) fun _ _ => ?_
  refine FailsAs.bindRun (parse_fails true source) fun t ht => ?_
  refine FailsAs.bindRun (build_fails ht) fun made hmade => ?_
  obtain ⟨a, rfl⟩ := built_of_parse ht hmade
  obtain ⟨ts, rfl⟩ : ∃ ts, a = .tests ts := stands_of_build ht hmade
  -- the layer that asks for reports has no probe
  have hscope : ∀ P : Probe Value → Prop, (if reports then
      (Scope.ofFields bindings).extend [(Scope.reportKey, .boolean true)]
      else Scope.ofFields bindings).Carries P := by
    intro P
    have hfields := carries_ofFields h P
    cases reports with
    | false => exact hfields
    | true => exact hfields.extend (List.forall_mem_singleton.2 (Value.carries_boolean true))
  have heval := UnaryTests.eval_fails (R := fun f => f.Documented ∨ f ∈ Expr.limitsOfItems ts.tests)
    (v := (if reports then (Scope.ofFields bindings).extend [(Scope.reportKey, .boolean true)]
      else Scope.ofFields bindings).get Scope.inputKey)
    (allowed_standard fun f hf => .inl hf) (hscope _) ts fun f hf => .inr hf
  refine FailsAs.bindRun (heval.mono fun f hf => ?_) fun v _ => .ok _
  exact fatal_of_limits ht hmade (Expr.limitsOfItems_subset _) hf

/-! ### In memory -/

theorem callsAllowed : CallsAllowed fun f => f.Documented ∨ f ∈ callLimits :=
  ⟨fun _ h => .inl h, fun _ h => .inr h⟩

/-- What is parsed and built fails with what is announced, or at an integer with too many digits. -/
theorem made_fails (s : Settings) (unary : Bool) (source : String) {k : Option Artifact → Act Event Held}
    (hk : ∀ t a, parse unary source = .ok t → (t.build source).outcome = .ok (some a) →
      (k (some a)).FailsAs fun f => f.Documented ∨ f ∈ callLimits) :
    (do
      let tree ← Act.ofExcept (parse unary source)
      k (← Act.ofRun (s.build source tree))).FailsAs fun f => f.Documented ∨ f ∈ callLimits := by
  have hfatal : ∀ f, Fatal unary source f → f.Documented ∨ f ∈ callLimits :=
    fun f hf => hf.imp_right And.left
  refine Act.FailsAs.ofExcept_bind ((parse_fails unary source).mono hfatal) fun t ht => ?_
  refine Act.FailsAs.ofRun_bind ((build_fails ht).mono hfatal) fun made hmade => ?_
  obtain ⟨a, rfl⟩ := built_of_parse ht hmade
  exact hk t a ht hmade

theorem noteHeld_fails (s : Settings) (text : String) (h : Held) :
    (s.noteHeld text h).FailsAs fun f => f.Documented ∨ f ∈ callLimits := by
  have hanswer : ∀ v, (Act.ofRun (s.noteAnswer text v)).FailsAs fun f => f.Documented ∨ f ∈ callLimits := by
    intro v
    refine .ofRun ?_
    unfold Settings.noteAnswer
    split
    · exact FailsAs.bindRun (shown_fails (.inr (by decide)) v) fun _ _ => .ok _
    · exact .ok _
  unfold Settings.noteHeld
  dsimp only
  split
  · exact (value_fails (.inr (by decide)) h).bind fun v => (hanswer v).bind fun _ => .ok _
  · exact .ok _

theorem note_fails (s : Settings) (text : String) :
    (Act.ofRun (s.note text)).FailsAs fun f => f.Documented ∨ f ∈ callLimits := by
  refine .ofRun ?_
  unfold Settings.note
  split <;> exact .ok _

theorem evaluateHeld_fails (s : Settings) (registry : HeldFields) (source : String) (fields : HeldFields) :
    (evaluateHeld s registry source fields).FailsAs fun f => f.Documented ∨ f ∈ callLimits := by
  have hsingle : ∀ h : Held, (h.single : Act Event Held).FailsAs fun f => f.Documented ∨ f ∈ callLimits := by
    intro h
    unfold Held.single
    split
    · refine (Act.FailsAs.reads _).bind fun hs => ?_
      split <;> exact .ok _
    · exact .ok _
  refine (note_fails s _).bind fun _ => made_fails s false source fun t a _ _ => ?_
  have hact : (a.act registry [fields]).FailsAs fun f => f.Documented ∨ f ∈ callLimits := by
    unfold Artifact.act
    split
    · exact Expr.actWithin_fails registry callsAllowed _ _ _
    · exact .fail (.inr (by decide))
  exact (hact.mapEvents _).bind fun h => (hsingle h).bind fun _ => noteHeld_fails s _ _

theorem unaryTestHeld_fails (s : Settings) (registry : HeldFields) (source : String) (fields : HeldFields)
    (reports : Bool) :
    (unaryTestHeld s registry source fields reports).FailsAs fun f => f.Documented ∨ f ∈ callLimits := by
  refine (note_fails s _).bind fun _ => made_fails s true source fun t a ht ha => ?_
  obtain ⟨ts, rfl⟩ : ∃ ts, a = .tests ts := stands_of_build ht ha
  have hact := UnaryTests.act_fails callsAllowed (Expr.actWithin_fails registry callsAllowed Act.limit) registry
  exact ((hact _ ts _).mapEvents _).bind fun h => noteHeld_fails s _ _

/-- What is answered in memory is read out of it in the end. -/
theorem answered_fails (s : HeldSession) (name : Option String) {act : Act Event Held}
    (h : act.FailsAs fun f => f.Documented ∨ f ∈ callLimits) :
    FailsAs (fun f => f.Documented ∨ f ∈ callLimits) (s.answered name act).2.outcome := by
  refine FailsAs.bind (h s.memory) fun g _ => ?_
  exact (valueBy_fails (list_fails (.inr (by decide)) _ _) g).bind fun _ _ => .ok _

/-- Where values end without telling how it goes on, the limits of calls may be met in memory. -/
theorem fatal_beyond (h : Fatal unary source .beyond) {f : Failure} (hf : f.Documented ∨ f ∈ callLimits) :
    Fatal unary source f := by
  have hmeets := (h.resolve_left (by decide)).2
  exact hf.imp_right fun hf => ⟨hf, hmeets.of_beyond hf⟩

theorem error_of_isBeyond {ε α : Type} {r : Run ε α} (h : r.isBeyond = true) : r.outcome = .error .beyond := by
  obtain ⟨events, e | a⟩ := r
  · exact congrArg Except.error (of_decide_eq_true h)
  · cases h

/-- The first step of a session in memory. -/
theorem first_fails {R : Failure → Prop} {settings : Settings} {step : Step}
    (h : FailsAs R ((HeldSession.start settings).step step).2.outcome) :
    FailsAs R (HeldSession.first settings step).outcome := h.bindRun fun _ _ => .ok _

theorem respond_fails (h : (Value.context bindings).Data) (source : String) :
    FailsAs (Fatal false source) (respond .standard source bindings).outcome := by
  have htold := evaluate_fails h source
  unfold respond
  dsimp only
  split
  · rename_i hbeyond
    refine first_fails ((answered_fails _ none (evaluateHeld_fails _ _ source _)).mono fun f hf => ?_)
    exact fatal_beyond (htold _ (error_of_isBeyond hbeyond)) hf
  · exact htold

theorem respondUnary_fails (h : (Value.context bindings).Data) (source : String) (reports : Bool) :
    FailsAs (Fatal true source) (respondUnary .standard source bindings reports).outcome := by
  have htold := unaryTest_fails h source reports
  unfold respondUnary
  dsimp only
  split
  · rename_i hbeyond
    refine first_fails ((answered_fails _ none (unaryTestHeld_fails _ _ source _ reports)).mono fun f hf => ?_)
    exact fatal_beyond (htold _ (error_of_isBeyond hbeyond)) hf
  · exact htold

end Sources

/-- **Only announced failures and limits end an evaluation.** For every source and every context of data,
with the builtins: where an evaluation or a unary test, with reports or without, has no answer, its failure
is announced under a name, or it is a limit of numbers or a call that does not fit. So it is whether values
tell the answer or memory is needed. A limit is only met where the source has an integer with too many digits
or a form that tells it, in the part that is built: a call, an interval, a filter by a number, a range or a
loop. -/
theorem failures_documented (source : String) (bindings : Fields)
    (hdata : (Value.context bindings).Data) :
    (∀ f, (respond .standard source bindings).outcome = .error f →
      f.Documented ∨ (f ∈ callLimits ∧ MeetsLimit false source f)) ∧
    ∀ reports f, (respondUnary .standard source bindings reports).outcome = .error f →
      f.Documented ∨ (f ∈ callLimits ∧ MeetsLimit true source f) :=
  ⟨respond_fails hdata source, respondUnary_fails hdata source⟩

/-- The failure of a computation, if it fails. -/
def failureOf {α : Type} : Except Failure α → Option Failure
  | .ok _ => none
  | .error f => some f

theorem eq_error_of_failureOf {α : Type} {x : Except Failure α} {f : Failure}
    (h : failureOf x = some f) : x = .error f := by
  cases x with
  | ok a => cases h
  | error g => exact congrArg Except.error (Option.some.inj h)

theorem failureOf_floor_infinite :
    failureOf (respond .standard "floor(number(\"inf\"))" [("x", .whole 1)]).outcome =
      some .overflow := by
  decide +kernel

theorem infinite_floor_meets_limit :
    MeetsLimit false "floor(number(\"inf\"))" .overflow := by
  have hfail := eq_error_of_failureOf failureOf_floor_infinite
  have hdata : (Value.context [("x", .whole 1)]).Data := by
    exact Value.carries_context.2 (List.forall_mem_singleton.2 trivial)
  rcases (failures_documented _ _ hdata).1 _ hfail with hdocumented | ⟨-, hlimit⟩
  · exact absurd hdocumented (by decide)
  · exact hlimit

/-- The largest integer below an infinite number: a failure that is not announced. -/
theorem infinite_floor_overflows :
    (respond .standard "floor(number(\"inf\"))" [("x", .whole 1)]).outcome = .error .overflow ∧
      ¬ Failure.Documented .overflow :=
  ⟨eq_error_of_failureOf failureOf_floor_infinite, by decide⟩

end Criterion

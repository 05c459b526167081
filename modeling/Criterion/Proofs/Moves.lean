import Criterion.Proofs.Answers
import Criterion.Proofs.Subterms

/-!
# Expressions that stand elsewhere

An expression knows the places of its tests. The same expression at other places gives moved values, in
scopes that have moved values for all that it reads.

* `Expr.moved`: an expression with the places of its tests moved.
* `Scope.Mirrors`: a scope has the moved values of another under some keys.
* `Expr.eval_moved`: **in a scope that mirrors another, the moved expression has the moved value, the same
  failure and the moved calls.**
-/

namespace Criterion

namespace Expr

section Moving

variable (ρ : ℕ ↪ ℕ)

mutual

/-- The expression with the places of its tests moved along `ρ`. -/
def moved : Expr → Expr
  | .list items => .list (movedItems items)
  | .context entries => .context (movedEntries entries)
  | .unary op a => .unary op (moved a)
  | .arithmetic op a b => .arithmetic op (moved a) (moved b)
  | .relation op a b => .relation op (moved a) (moved b)
  | .between a low high => .between (moved a) (moved low) (moved high)
  | .member a tests => .member (moved a) (moved tests)
  | .disjunction a b => .disjunction (moved a) (moved b)
  | .conjunction a b => .conjunction (moved a) (moved b)
  | .instanceOf a type => .instanceOf (moved a) type
  | .choose condition yes none => .choose (moved condition) (moved yes) none
  | .choose condition yes (some no) => .choose (moved condition) (moved yes) (some (moved no))
  | .loop bindings body => .loop (movedEntries bindings) (moved body)
  | .quantified q bindings condition => .quantified q (movedEntries bindings) (moved condition)
  | .range a b => .range (moved a) (moved b)
  | .call source callee arguments => .call source (moved callee) (movedItems arguments)
  | .path target field => .path (moved target) field
  | .filter target condition => .filter (moved target) (moved condition)
  | .test site op operand => .test (ρ site) op (moved operand)
  | .interval site includesStart start stop includesStop =>
    .interval (ρ site) includesStart (moved start) (moved stop) includesStop
  | .null => .null
  | .boolean b => .boolean b
  | .number n => .number n
  | .text s => .text s
  | .wildcard => .wildcard
  | .name n => .name n
  | .registered n => .registered n
  | .input => .input
  | .procedure => .procedure

def movedItems : List Expr → List Expr
  | [] => []
  | e :: rest => moved e :: movedItems rest

def movedEntries : List (String × Expr) → List (String × Expr)
  | [] => []
  | (key, e) :: rest => (key, moved e) :: movedEntries rest

end

end Moving

variable {ρ : ℕ ↪ ℕ}

/-- The kind of value that an expression is expected to have does not depend on its place. -/
theorem tag_moved : ∀ e : Expr, (e.moved ρ).tag = e.tag
  | .unary op a => tag_moved a
  | .arithmetic op a b => by rw [moved, tag, tag, tag_moved a, tag_moved b]
  | .choose condition yes (some no) => by rw [moved, tag, tag, tag_moved yes, tag_moved no]
  | .choose condition yes none => rfl
  | .null | .boolean _ | .number _ | .text _ | .wildcard | .name _ | .registered _ | .input | .list _
  | .context _ | .relation .. | .between .. | .member .. | .disjunction .. | .conjunction ..
  | .instanceOf .. | .loop .. | .quantified .. | .range .. | .call .. | .path .. | .filter .. | .test ..
  | .interval .. | .procedure => rfl

end Expr

/-! ## Scopes -/

/-- A scope has the moved values of another under some keys, and under the key of reports. -/
def Scope.Mirrors (ρ : ℕ ↪ ℕ) (keys : List String) (s t : Scope) : Prop :=
  ∀ k ∈ reportKey :: keys, t.get? k = (s.get? k).map (Value.moved ρ)

section Scopes

variable {ρ : ℕ ↪ ℕ} {keys : List String} {s t : Scope}

namespace Scope.Mirrors

theorem extend (h : Mirrors ρ keys s t) (layer : Fields) :
    Mirrors ρ keys (s.extend layer) (t.extend (layer.moved ρ)) := by
  intro k hk
  rw [Scope.get_extend, Scope.get_extend, h k hk, Fields.get_moved, Option.map_or]

theorem get (h : Mirrors ρ keys s t) {k : String} (hk : k ∈ reportKey :: keys) :
    t.get k = (s.get k).moved ρ := by
  unfold Scope.get
  rw [h k hk, Value.moved_ofOption]

theorem reports (h : Mirrors ρ keys s t) : t.reports = s.reports := by
  unfold Scope.reports
  rw [h.get List.mem_cons_self, Value.isNonzero_moved]

theorem resolve (h : Mirrors ρ keys s t) {n : String} (hn : Known keys n) :
    t.resolve n = (s.resolve n).moved ρ := by
  have hwhole := h n (List.mem_cons_of_mem _ hn.1)
  have hhead := h _ (List.mem_cons_of_mem _ hn.2)
  unfold Scope.resolve
  rw [hwhole]
  cases s.get? n with
  | some v => rfl
  | none =>
    revert hhead
    obtain ⟨first, rest⟩ := segments n
    intro hhead
    cases rest with
    | nil => rfl
    | cons =>
      dsimp only [Option.map_none] at hhead ⊢
      rw [hhead]
      split
      · rfl
      cases s.get? first with
      | none => rfl
      | some v => exact Value.foldl_field_moved _ v

theorem resolveName (h : Mirrors ρ keys s t) (registry : Fields) {n : String} (hn : Known keys n) :
    resolveName (registry.moved ρ) t n = (Criterion.resolveName registry s n).moved ρ := by
  have hresolve := h.resolve hn
  unfold Criterion.resolveName
  rw [Fields.get_moved]
  cases registry.get? n with
  | none => exact hresolve
  | some v =>
    cases v with
    | null => exact hresolve
    | _ => rfl

end Scope.Mirrors

/-! ## Loops and filters -/

/-- What is computed in mirrored scopes is moved. -/
def MovedIn (ρ : ℕ ↪ ℕ) (keys : List String) (body body' : Scope → Eval Value) : Prop :=
  ∀ s t, Scope.Mirrors ρ keys s t → body' t = Eval.moved ρ (Value.moved ρ) (body s)

theorem product_map {α β : Type} (f : α → β) (lists : List (List α)) :
    product (lists.map (List.map f)) = (product lists).map (List.map f) := by
  induction lists with
  | nil => rfl
  | cons choices rest ih =>
    rw [List.map_cons, product, product, ih, List.map_flatMap, List.flatMap_map]
    refine congrArg (List.flatMap · choices) (funext fun a => ?_)
    rw [List.map_map, List.map_map]
    rfl

/-- The lists of a loop with their elements moved. -/
def movedDomains (ρ : ℕ ↪ ℕ) (domains : List (String × List Value)) : List (String × List Value) :=
  domains.map fun d => (d.1, d.2.map (Value.moved ρ))

theorem choices_moved (domains : List (String × List Value)) :
    (movedDomains ρ domains).map (fun (name, values) => values.map fun v => (name, v)) =
      (domains.map fun (name, values) => values.map fun v => (name, v)).map
        (List.map fun p => (p.1, p.2.moved ρ)) := by
  unfold movedDomains
  rw [List.map_map, List.map_map]
  refine List.map_congr_left fun d _ => ?_
  simp only [Function.comp_apply, List.map_map]
  rfl

/-- The scopes of a loop over moved lists mirror those of the loop. -/
theorem loopScopes_mirror (h : Scope.Mirrors ρ keys s t) (domains : List (String × List Value)) :
    List.Forall₂ (Scope.Mirrors ρ keys) (loopScopes s domains) (loopScopes t (movedDomains ρ domains)) := by
  unfold loopScopes
  rw [choices_moved, product_map, List.map_map, List.forall₂_map_left_iff, List.forall₂_map_right_iff,
    List.forall₂_same]
  intro pairs _
  have hlayer : Fields.ofPairs (pairs.map fun p => (p.1, p.2.moved ρ)) = (Fields.ofPairs pairs).moved ρ :=
    (Fields.ofPairs_moved pairs).symm
  show Scope.Mirrors ρ keys _ (t.extend (.ofPairs (pairs.map fun p => (p.1, p.2.moved ρ))))
  rw [hlayer]
  exact h.extend _

variable {body body' : Scope → Eval Value}

theorem collect_moved (hbody : MovedIn ρ keys body body') {ss ts : List Scope}
    (h : List.Forall₂ (Scope.Mirrors ρ keys) ss ts) : ∀ results,
      collect body' (results.map (Value.moved ρ)) ts =
        Eval.moved ρ (List.map (Value.moved ρ)) (collect body results ss) := by
  induction h with
  | nil => exact fun _ => rfl
  | @cons s t ss ts hst _ ih =>
    intro results
    -- each round sees the results before it, moved
    have hlayer : Scope.Mirrors ρ keys (s.extend [(partialKey, .list results)])
        (t.extend [(partialKey, .list (results.map (Value.moved ρ)))]) := by
      have hextend := hst.extend [(partialKey, .list results)]
      rwa [Fields.moved_cons, Fields.moved_nil, Value.moved_list] at hextend
    refine Eval.moved_bind (hbody _ _ hlayer) fun v => ?_
    have hresults : results.map (Value.moved ρ) ++ [v.moved ρ] = (results ++ [v]).map (Value.moved ρ) := by
      rw [List.map_append]
      rfl
    rw [hresults]
    exact ih (results ++ [v])

theorem decideQuantifier_moved (q : Quantifier) (hbody : MovedIn ρ keys body body') {ss ts : List Scope}
    (h : List.Forall₂ (Scope.Mirrors ρ keys) ss ts) :
    decideQuantifier q body' ts = Eval.moved ρ id (decideQuantifier q body ss) := by
  induction h with
  | nil => rfl
  | cons hst _ ih =>
    refine Eval.moved_bind (hbody _ _ hst) fun v => ?_
    rw [Value.isTrue_moved]
    cases q with
    | every =>
      dsimp only
      split
      · exact ih
      · rfl
    | some =>
      dsimp only
      split
      · rfl
      · exact ih

theorem selectWhere_moved (hbody : MovedIn ρ keys body body') (h : Scope.Mirrors ρ keys s t)
    (items : List Value) :
    selectWhere body' t (items.map (Value.moved ρ)) =
      Eval.moved ρ (List.map (Value.moved ρ)) (selectWhere body s items) := by
  induction items with
  | nil => rfl
  | cons item rest ih =>
    have hlayer : Scope.Mirrors ρ keys (s.extend item.itemLayer) (t.extend (item.moved ρ).itemLayer) := by
      rw [itemLayer_moved]
      exact h.extend _
    have hkept : ∀ holds : Value, (do
          let others ← selectWhere body' t (rest.map (Value.moved ρ))
          return if (holds.moved ρ).isTrue then item.moved ρ :: others else others) =
        Eval.moved ρ (List.map (Value.moved ρ)) (do
          let others ← selectWhere body s rest
          return if holds.isTrue then item :: others else others) := by
      intro holds
      refine Eval.moved_map ih fun others => ?_
      rw [Value.isTrue_moved]
      split <;> rfl
    refine Eval.moved_bind (hbody _ _ hlayer) fun outcome => ?_
    -- what a probe answers for the element is moved, too
    cases outcome with
    | probe p => exact Eval.moved_bind (match_moved p item) hkept
    | _ => exact Eval.moved_bind rfl hkept

/-- A filter of a moved value keeps what is moved. -/
theorem select_moved (hbody : MovedIn ρ keys body body') (h : Scope.Mirrors ρ keys s t) (target : Value)
    (tag : Option Tag) :
    select (target.moved ρ) tag body' t = Eval.moved ρ (Value.moved ρ) (select target tag body s) := by
  by_cases hnull : target.kind = .null
  · rw [Value.null_of_kind hnull]
    rfl
  have hmoved : (target.moved ρ).kind ≠ .null := by rwa [Value.kind_moved]
  rw [select_eq hnull, select_eq hmoved, Value.elements_moved]
  split
  · refine Eval.moved_bind (hbody s t h) fun position => ?_
    rw [Value.atPosition_moved, Eval.moved_ofExcept]
  · refine Eval.moved_map (hbody s t h) fun v => ?_
    rw [Value.isNonzero_moved, Value.isList_moved]
    split
    · exact (Value.moved_list _).symm
    · split <;> rfl
  · refine Eval.moved_map (hbody s t h) fun v => ?_
    have heqv : (fun u : Value => u.eqv (v.moved ρ)) ∘ Value.moved ρ = fun u => u.eqv v :=
      funext fun u => eqv_moved u v
    rw [Value.moved_list, List.filter_map, heqv]
  · refine Eval.moved_map (selectWhere_moved hbody h _) fun items => ?_
    exact (Value.moved_list _).symm

end Scopes

/-! ## Evaluation -/

namespace Expr

variable {ρ : ℕ ↪ ℕ} {keys : List String}

mutual

/-- **In a scope that mirrors another, the moved expression has the moved value, the same failure and the
moved calls.** -/
theorem eval_moved (registry : Fields) : ∀ e : Expr, (∀ x ∈ e.subterms, x.Within keys) →
    MovedIn ρ keys (eval registry e) (eval (registry.moved ρ) (e.moved ρ))
  | .null, _, _, _, _ | .boolean _, _, _, _, _ | .number _, _, _, _, _ | .text _, _, _, _, _
  | .wildcard, _, _, _, _ | .procedure, _, _, _, _ => rfl
  | .registered n, _, s, t, _ => by
    rw [moved, eval, eval, Fields.get_moved, Eval.moved_pure, Value.moved_ofOption]
  | .input, h, s, t, hst => by
    have hinput : Scope.inputKey ∈ keys := h _ List.mem_cons_self
    rw [moved, eval, eval, hst.get (List.mem_cons_of_mem _ hinput), Eval.moved_pure]
  | .name n, h, s, t, hst => by
    have hn : Known keys n := h _ List.mem_cons_self
    rw [moved, eval, eval, hst.resolveName registry hn, Eval.moved_pure]
  | .list items, h, s, t, hst => by
    have hitems := evalItems_moved registry items (List.forall_mem_cons.1 h).2 s t hst
    rw [moved, eval, eval]
    exact Eval.moved_map hitems fun vs => (Value.moved_list vs).symm
  | .context entries, h, s, t, hst => by
    have hentries := evalEntries_moved registry entries (List.forall_mem_cons.1 h).2 s t hst
    rw [moved, eval, eval]
    refine Eval.moved_map hentries fun fields => ?_
    rw [Value.moved_context, Fields.ofPairs_moved]
  | .unary op a, h, s, t, hst => by
    have ha := eval_moved registry a (List.forall_mem_cons.1 h).2 s t hst
    rw [moved, eval, eval]
    refine Eval.moved_map ha fun v => ?_
    exact Value.arithmetic_moved op (.whole 0) v
  | .arithmetic op a b, h, s, t, hst => by
    obtain ⟨ha, hb⟩ := List.forall_mem_append.1 (List.forall_mem_cons.1 h).2
    rw [moved, eval, eval]
    exact Eval.moved_map₂ (eval_moved registry a ha s t hst) (eval_moved registry b hb s t hst) fun v w =>
      Value.arithmetic_moved op v w
  | .relation op a b, h, s, t, hst => by
    obtain ⟨ha, hb⟩ := List.forall_mem_append.1 (List.forall_mem_cons.1 h).2
    rw [moved, eval, eval, hst.reports]
    refine Eval.moved_map₂ (eval_moved registry a ha s t hst) (eval_moved registry b hb s t hst) fun v w => ?_
    rw [Value.compare_moved, answer_moved]
  | .between a low high, h, s, t, hst => by
    obtain ⟨ha, hbounds⟩ := List.forall_mem_append.1 (List.forall_mem_cons.1 h).2
    obtain ⟨hlow, hhigh⟩ := List.forall_mem_append.1 hbounds
    rw [moved, eval, eval, hst.reports]
    refine Eval.moved_bind (eval_moved registry a ha s t hst) fun v => ?_
    refine Eval.moved_map₂ (eval_moved registry low hlow s t hst) (eval_moved registry high hhigh s t hst)
      fun start stop => ?_
    rw [Value.between_moved, answer_moved]
  | .member a tests, h, s, t, hst => by
    obtain ⟨ha, htests⟩ := List.forall_mem_append.1 (List.forall_mem_cons.1 h).2
    rw [moved, eval, eval, hst.reports]
    refine Eval.moved_bind (eval_moved registry a ha s t hst) fun v => ?_
    refine Eval.moved_bind (eval_moved registry tests htests s t hst) fun w => ?_
    rw [Value.elements_moved]
    exact Eval.moved_map (passesAny_moved v w.elements) fun found => answer_moved s.reports v (some found)
  | .disjunction a b, h, s, t, hst => by
    obtain ⟨ha, hb⟩ := List.forall_mem_append.1 (List.forall_mem_cons.1 h).2
    rw [moved, eval, eval, hst.reports]
    refine Eval.moved_map₂ (eval_moved registry a ha s t hst) (eval_moved registry b hb s t hst) fun v w => ?_
    rw [Value.isNonzero_moved, ← apply_ite (Value.moved ρ), Value.isNonzero_moved]
    split <;> rfl
  | .conjunction a b, h, s, t, hst => by
    obtain ⟨ha, hb⟩ := List.forall_mem_append.1 (List.forall_mem_cons.1 h).2
    rw [moved, eval, eval, hst.reports]
    refine Eval.moved_map₂ (eval_moved registry a ha s t hst) (eval_moved registry b hb s t hst) fun v w => ?_
    rw [Value.isNonzero_moved, ← apply_ite (Value.moved ρ), Value.isNonzero_moved]
    split <;> rfl
  | .instanceOf a type, h, s, t, hst => by
    have ha := eval_moved registry a (List.forall_mem_cons.1 h).2 s t hst
    rw [moved, eval, eval]
    refine Eval.moved_map ha fun v => ?_
    rw [Value.isInstance_moved, Value.moved_boolean]
  | .choose condition yes none, h, s, t, hst => by
    obtain ⟨hcondition, hyes⟩ := List.forall_mem_append.1 (List.forall_mem_cons.1 h).2
    rw [moved, eval, eval]
    refine Eval.moved_bind (eval_moved registry condition hcondition s t hst) fun v => ?_
    rw [Value.isTrue_moved]
    split
    · exact eval_moved registry yes hyes s t hst
    · rfl
  | .choose condition yes (some no), h, s, t, hst => by
    obtain ⟨hcondition, hbranches⟩ := List.forall_mem_append.1 (List.forall_mem_cons.1 h).2
    obtain ⟨hyes, hno⟩ := List.forall_mem_append.1 hbranches
    rw [moved, eval, eval]
    refine Eval.moved_bind (eval_moved registry condition hcondition s t hst) fun v => ?_
    rw [Value.isTrue_moved]
    split
    · exact eval_moved registry yes hyes s t hst
    · exact eval_moved registry no hno s t hst
  | .loop bindings body, h, s, t, hst => by
    obtain ⟨hbindings, hbody⟩ := List.forall_mem_append.1 (List.forall_mem_cons.1 h).2
    rw [moved, eval, eval]
    refine Eval.moved_bind (evalDomains_moved registry bindings hbindings s t hst) fun domains => ?_
    refine Eval.moved_map ?_ fun results => (Value.moved_list results).symm
    exact collect_moved (eval_moved registry body hbody) (loopScopes_mirror hst domains) []
  | .quantified q bindings condition, h, s, t, hst => by
    obtain ⟨hbindings, hcondition⟩ := List.forall_mem_append.1 (List.forall_mem_cons.1 h).2
    rw [moved, eval, eval]
    refine Eval.moved_bind (evalDomains_moved registry bindings hbindings s t hst) fun domains => ?_
    exact Eval.moved_map (decideQuantifier_moved q (eval_moved registry condition hcondition)
      (loopScopes_mirror hst domains)) fun holds => rfl
  | .range a b, h, s, t, hst => by
    obtain ⟨ha, hb⟩ := List.forall_mem_append.1 (List.forall_mem_cons.1 h).2
    rw [moved, eval, eval]
    refine Eval.moved_bind (eval_moved registry a ha s t hst) fun v => ?_
    refine Eval.moved_bind (eval_moved registry b hb s t hst) fun w => ?_
    rw [range_moved]
    refine Eval.moved_map (k := id) ?_ fun items => ?_
    · rw [Eval.moved_ofExcept]
      cases v.range w <;> rfl
    · rw [Value.moved_list, List.map_map]
      rfl
  | .call source callee arguments, h, s, t, hst => by
    obtain ⟨hcallee, harguments⟩ := List.forall_mem_append.1 (List.forall_mem_cons.1 h).2
    rw [moved, eval, eval]
    refine Eval.moved_bind (eval_moved registry callee hcallee s t hst) fun f => ?_
    rw [Value.isCallable_moved]
    split
    · rfl
    · exact Eval.moved_bind (evalItems_moved registry arguments harguments s t hst) fun vs => call_moved f vs
  | .path target field, h, s, t, hst => by
    have htarget := eval_moved registry target (List.forall_mem_cons.1 h).2 s t hst
    rw [moved, eval, eval]
    exact Eval.moved_map htarget fun v => Value.fieldOrFields_moved v field
  | .filter target condition, h, s, t, hst => by
    obtain ⟨htarget, hcondition⟩ := List.forall_mem_append.1 (List.forall_mem_cons.1 h).2
    rw [moved, eval, eval]
    refine Eval.moved_bind (eval_moved registry target htarget s t hst) fun v => ?_
    rw [tag_moved]
    exact select_moved (eval_moved registry condition hcondition) hst v condition.tag
  | .test site op operand, h, s, t, hst => by
    have hoperand := eval_moved registry operand (List.forall_mem_cons.1 h).2 s t hst
    rw [moved, eval, eval, hoperand, hst.reports, Eval.moved_pure, Value.moved_probe, movedProbe_relation]
  | .interval site includesStart start stop includesStop, h, s, t, hst => by
    obtain ⟨hstart, hstop⟩ := List.forall_mem_append.1 (List.forall_mem_cons.1 h).2
    rw [moved, eval, eval, hst.reports]
    exact Eval.moved_map₂ (eval_moved registry start hstart s t hst) (eval_moved registry stop hstop s t hst)
      fun v w => rfl

theorem evalItems_moved (registry : Fields) : ∀ items : List Expr,
    (∀ x ∈ subtermsOfItems items, x.Within keys) → ∀ s t, Scope.Mirrors ρ keys s t →
      evalItems (registry.moved ρ) (movedItems ρ items) t =
        Eval.moved ρ (List.map (Value.moved ρ)) (evalItems registry items s)
  | [], _, _, _, _ => rfl
  | e :: rest, h, s, t, hst => by
    obtain ⟨he, hrest⟩ := List.forall_mem_append.1 h
    rw [movedItems, evalItems, evalItems]
    refine Eval.moved_bind (eval_moved registry e he s t hst) fun v => ?_
    exact Eval.moved_map (evalItems_moved registry rest hrest s t hst) fun vs => rfl

theorem evalEntries_moved (registry : Fields) : ∀ entries : List (String × Expr),
    (∀ x ∈ subtermsOfEntries entries, x.Within keys) → ∀ s t, Scope.Mirrors ρ keys s t →
      evalEntries (registry.moved ρ) (movedEntries ρ entries) t =
        Eval.moved ρ (Fields.moved ρ) (evalEntries registry entries s)
  | [], _, _, _, _ => rfl
  | (key, e) :: rest, h, s, t, hst => by
    obtain ⟨he, hrest⟩ := List.forall_mem_append.1 h
    rw [movedEntries, evalEntries, evalEntries]
    refine Eval.moved_bind (eval_moved registry e he s t hst) fun v => ?_
    exact Eval.moved_map (evalEntries_moved registry rest hrest s t hst) fun fields => rfl

theorem evalDomains_moved (registry : Fields) : ∀ entries : List (String × Expr),
    (∀ x ∈ subtermsOfEntries entries, x.Within keys) → ∀ s t, Scope.Mirrors ρ keys s t →
      evalDomains (registry.moved ρ) (movedEntries ρ entries) t =
        Eval.moved ρ (movedDomains ρ) (evalDomains registry entries s)
  | [], _, _, _, _ => rfl
  | (key, e) :: rest, h, s, t, hst => by
    obtain ⟨he, hrest⟩ := List.forall_mem_append.1 h
    rw [movedEntries, evalDomains, evalDomains]
    refine Eval.moved_bind (eval_moved registry e he s t hst) fun v => ?_
    refine Eval.moved_bind (k := List.map (Value.moved ρ)) ?_ fun items => ?_
    · rw [domainOf_moved, Eval.moved_ofExcept]
    · exact Eval.moved_map (evalDomains_moved registry rest hrest s t hst) fun domains => rfl

end

end Expr

end Criterion

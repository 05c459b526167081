import Criterion.Proofs.Recall

/-!
# Evaluation in memory refines evaluation by values

Where values tell how an evaluation goes on, the evaluation in memory goes on in the same way: it makes the same
calls and fails alike, and the answer that it leaves in memory is told by the value. Tests are asked where they are
made; what is saved of them for later can be told apart in memory by more than their place in the source.

* `Expr.isTold`: expressions whose tests are asked where they are made.
* `Expr.act_runs`, `UnaryTests.act_runs`: **they run in memory as values tell.**
-/

namespace Criterion

open Act

/-! ## The expressions -/

/-- The role of the elements of a list. -/
def Role.ofElement : Role → Role
  | .tests => .test
  | _ => .data

namespace Expr

mutual

/-- Whether the tests in an expression are asked where they are made, and fewer than `n` in turn. -/
def isTold : Expr → Role → (n : Nat) → Bool
  | .null, _, _ | .boolean _, _, _ | .number _, _, _ | .text _, _, _ | .wildcard, _, _ | .name _, _, _
  | .registered _, _, _ | .input, _, _ | .procedure, _, _ => true
  | .list items, role, n => areTold items role.ofElement n
  | .context entries, _, n => entriesTold entries n
  | .unary _ a, _, n | .instanceOf a _, _, n | .path a _, _, n => a.isTold .data n
  | .arithmetic _ a b, _, n | .relation _ a b, _, n | .disjunction a b, _, n | .conjunction a b, _, n
  | .range a b, _, n => a.isTold .data n && b.isTold .data n
  | .between a low high, _, n => a.isTold .data n && (low.isTold .data n && high.isTold .data n)
  | .member a tests, _, n => a.isTold .data n && tests.isTold .tests n
  | .choose condition yes none, role, n => condition.isTold .data n && yes.isTold role n
  | .choose condition yes (some no), role, n =>
    condition.isTold .data n && (yes.isTold role n && no.isTold role n)
  | .loop bindings body, _, n => entriesTold bindings n && body.isTold .data n
  | .quantified _ bindings condition, _, n => entriesTold bindings n && condition.isTold .data n
  | .call _ callee arguments, _, n => callee.isTold .data n && areTold arguments .data n
  | .filter target condition, _, n => target.isTold .data n && condition.isTold (.ofTag condition.tag) n
  | .test _ _ operand, role, n => role != .data && match n with
    | 0 => false
    | n + 1 => operand.isTold .data n
  | .interval _ _ start stop _, role, n => role != .data && (start.isTold .data n && stop.isTold .data n)

def areTold : List Expr → Role → (n : Nat) → Bool
  | [], _, _ => true
  | e :: rest, role, n => e.isTold role n && areTold rest role n

def entriesTold : List (String × Expr) → (n : Nat) → Bool
  | [], _ => true
  | (_, e) :: rest, n => e.isTold .data n && entriesTold rest n

end

end Expr

/-! ## Steps -/

section Steps

variable {m m' : Memory} {h g : Held} {v w : Value} {hs : List Held} {vs : List Value} {layers : HeldLayers}
  {scope : Scope} {registry : HeldFields} {entries : Fields} {ask : Held.Asking} {role : Role}

/-- The memory tells all names that an expression may use. -/
structure Memory.TellsNames (m : Memory) (registry : HeldFields) (entries : Fields) (layers : HeldLayers)
    (scope : Scope) : Prop where
  registry : m.TellsFields registry entries
  layers : m.TellsLayers layers scope

theorem Memory.TellsNames.grows (h : m.TellsNames registry entries layers scope) (hgrows : m.Grows m') :
    m'.TellsNames registry entries layers scope := ⟨h.registry.grows hgrows, h.layers.grows hgrows⟩

theorem gives_of_tells (hv : m.Tells h v) : role.Gives ask m h v := by
  cases role with
  | data => exact hv
  | test => exact .told hv
  | tests => exact .one (.told hv)

theorem Role.Gives.grows (hv : role.Gives ask m h v) (hgrows : m.Grows m') : role.Gives ask m' h v := by
  cases role with
  | data => exact Memory.Holds.grows hv hgrows
  | test => exact Memory.Offers.grows hv hgrows
  | tests => exact Memory.OffersAny.grows hv hgrows

/-- What is told may stand in any role. -/
theorem runs_in_role {x : Deed Held} {r : Eval Value} (hx : RunsAs m x r Memory.Tells) :
    RunsAs m x r (role.Gives ask) := hx.mono fun _ _ _ _ hv => gives_of_tells hv

/-- A new list of what is given for its elements. -/
theorem listed_runs (hall : List.Forall₂ (role.ofElement.Gives ask m) hs vs) :
    RunsAs m (Act.alloc hs) (pure (.list vs) : Eval Value) (role.Gives ask) := by
  cases role with
  | data => exact alloc_runs hall
  | test => exact runs_in_role (alloc_runs hall)
  | tests =>
    have hgrows := Memory.grows_alloc m hs
    exact fun _ => ⟨hgrows, rfl, .ok (.list List.getElem?_concat_length (hall.imp fun _ _ hv => hv.grows hgrows))⟩

/-- A new test. -/
theorem posed_runs {test : Nat → Held} {p : Probe Value} (hrole : (role != .data) = true)
    (hp : ∀ serial, m.Poses ask (test serial) p) :
    RunsAs m (do return test (← Act.serial)) (pure (.probe p) : Eval Value) (role.Gives ask) := by
  have hgrows : m.Grows { m with tests := m.tests + 1 } := .refl m
  intro _
  refine ⟨hgrows, rfl, .ok ?_⟩
  have hoffers : Memory.Offers ask { m with tests := m.tests + 1 } (test m.tests) (.probe p) :=
    .test ((hp m.tests).grows hgrows)
  cases role with
  | data => cases hrole
  | test => exact hoffers
  | tests => exact .one hoffers

/-- Two operands from left to right. -/
theorem both_run {α β : Type} {x y : Deed Held} {r s : Eval Value} {k : Held → Held → Deed α}
    {l : Value → Value → Eval β} {Q : Memory → α → β → Prop} (hx : RunsAs m x r Memory.Tells)
    (hy : ∀ m', m.Grows m' → RunsAs m' y s Memory.Tells)
    (hk : ∀ m' g v h w, m.Grows m' → m'.Tells g v → m'.Tells h w → RunsAs m' (k g h) (l v w) Q) :
    RunsAs m (x >>= fun g => y >>= fun h => k g h) (r >>= fun v => s >>= fun w => l v w) Q :=
  hx.bind fun m₁ g v hgrows hv => (hy m₁ hgrows).bind fun m₂ h w hgrows' hw =>
    hk m₂ g v h w (hgrows.trans hgrows') (hv.grows hgrows') hw

theorem isInstance_of_kind (hkind : v.kind = w.kind) (type : String) : v.isInstance type = w.isInstance type := by
  unfold Value.isInstance Value.isCallable
  rw [hkind]

theorem wholes_tell (items : List Int) :
    m.TellsAll (items.map fun i => .plain (.whole i)) (items.map Value.whole) := by
  induction items with
  | nil => exact .nil
  | cons i rest ih => exact .cons (.plain rfl) ih

/-- What a connective answers with. -/
theorem joined_runs (hlayers : m.TellsLayers layers scope) (hv : m.Tells h v) :
    RunsAs m (do
      if ← layers.reports then return h
      else return .plain (.boolean (← Act.outline h).isNonzero))
      (pure (if scope.reports then v else .boolean v.isNonzero) : Eval Value) Memory.Tells := by
  refine .of_eq (bind_reports hlayers) ?_
  split
  · exact .pure hv
  · refine .of_eq (bind_outline h) ?_
    rw [hv.outline.2.1]
    exact plain_runs rfl

theorem invoke_runs (hf : m.Tells g v) (hvs : m.TellsAll hs vs) :
    RunsAs m (g.invoke ask hs) (v.call vs) Memory.Tells := by
  have hcall : g.invoke ask hs = g.call hs := by
    unfold Held.invoke
    split
    · rw [match_none hf]
      rfl
    · rfl
  rw [hcall]
  exact call_runs hf hvs

end Steps

/-! ## Expressions -/

namespace Expr

variable {registry : HeldFields} {entries : Fields}

mutual

/-- **An expression runs in memory as values tell**, if its tests are asked where they are made. -/
theorem act_runs : ∀ (e : Expr) {role : Role} {n : Nat} {m : Memory} {layers : HeldLayers} {scope : Scope},
    e.isTold role n = true → m.TellsNames registry entries layers scope →
      RunsAs m (e.act (actWithin registry n) registry layers) (e.eval entries scope)
        (role.Gives (actWithin registry n))
  | .null, _, _, _, _, _, _, _ | .boolean _, _, _, _, _, _, _, _ | .number _, _, _, _, _, _, _, _
  | .text _, _, _, _, _, _, _, _ | .wildcard, _, _, _, _, _, _, _ | .procedure, _, _, _, _, _, _, _ => by
    unfold Expr.act Expr.eval
    exact runs_in_role (.pure (.plain rfl))
  | .name key, _, _, _, _, _, _, hnames => by
    unfold Expr.act Expr.eval
    exact runs_in_role (resolveName_runs hnames.registry hnames.layers key)
  | .registered key, _, _, _, _, _, _, hnames => by
    unfold Expr.act Expr.eval
    exact runs_in_role (.pure (get_or_null (get_tells hnames.registry key)))
  | .input, _, _, _, _, _, _, hnames => by
    unfold Expr.act Expr.eval
    exact runs_in_role (.pure (get_or_null (layersGet_tells hnames.layers Scope.inputKey)))
  | .list items, _, _, _, _, _, htold, hnames => by
    unfold Expr.act Expr.eval
    exact (actItems_runs items htold hnames).bind fun _ _ _ _ hall => listed_runs hall
  | .context fields, _, _, _, _, _, htold, hnames => by
    unfold Expr.act Expr.eval
    refine runs_in_role ((actEntries_runs fields htold hnames).bind fun m' _ _ _ hfields => .pure ?_)
    exact Memory.holds_context.2 ⟨_, ofPairs_tells hfields, rfl⟩
  | .unary op a, _, _, _, _, _, htold, hnames => by
    unfold Expr.act Expr.eval
    refine runs_in_role ((act_runs a htold hnames).bind fun m' g v _ hv => ?_)
    exact .of_eq (bind_value hv) (plain_runs (listless_of_flat (arithmetic_flat _ _ _)))
  | .arithmetic op a b, _, _, _, _, _, htold, hnames => by
    obtain ⟨ha, hb⟩ := Bool.and_eq_true_iff.1 htold
    unfold Expr.act Expr.eval
    refine runs_in_role (both_run (act_runs a ha hnames) (fun _ hgrows => act_runs b hb (hnames.grows hgrows)) ?_)
    intro m' g v h w _ hv hw
    exact .of_eq ((bind_value hv).trans (bind_value hw)) (plain_runs (listless_of_flat (arithmetic_flat _ _ _)))
  | .relation op a b, _, _, _, _, _, htold, hnames => by
    obtain ⟨ha, hb⟩ := Bool.and_eq_true_iff.1 htold
    unfold Expr.act Expr.eval
    refine runs_in_role (both_run (act_runs a ha hnames) (fun _ hgrows => act_runs b hb (hnames.grows hgrows)) ?_)
    intro m' g v h w hgrows hv hw
    exact .of_eq (bind_compare op hv hw) (answer_runs (hnames.layers.grows hgrows) hv _)
  | .between a low high, _, _, _, _, _, htold, hnames => by
    obtain ⟨ha, hbounds⟩ := Bool.and_eq_true_iff.1 htold
    obtain ⟨hlow, hhigh⟩ := Bool.and_eq_true_iff.1 hbounds
    unfold Expr.act Expr.eval
    refine runs_in_role ((act_runs a ha hnames).bind fun m₁ h v hfirst hv => ?_)
    have hnames' := hnames.grows hfirst
    refine both_run (act_runs low hlow hnames') (fun _ hgrows => act_runs high hhigh (hnames'.grows hgrows)) ?_
    intro m₂ g u k w hgrows hu hw
    have hv' := Memory.Holds.grows hv hgrows
    refine .of_eq ((bind_value hv').trans ((bind_value hu).trans (bind_value hw))) ?_
    exact answer_runs (hnames'.layers.grows hgrows) hv' _
  | .member a tests, _, _, _, _, _, htold, hnames => by
    obtain ⟨ha, htests⟩ := Bool.and_eq_true_iff.1 htold
    unfold Expr.act Expr.eval
    refine runs_in_role ((act_runs a ha hnames).bind fun m₁ h v hfirst hv => ?_)
    refine (act_runs tests htests (hnames.grows hfirst)).bind fun m₂ t w hsecond hw => ?_
    have hv' := Memory.Holds.grows hv hsecond
    refine (passesAny_runs hw hv').bind fun m₃ found found' hthird hfound => ?_
    subst hfound
    have hgrows := (hfirst.trans hsecond).trans hthird
    exact answer_runs (hnames.layers.grows hgrows) (hv'.grows hthird) _
  | .disjunction a b, _, _, _, _, _, htold, hnames => by
    obtain ⟨ha, hb⟩ := Bool.and_eq_true_iff.1 htold
    unfold Expr.act Expr.eval
    refine runs_in_role (both_run (act_runs a ha hnames) (fun _ hgrows => act_runs b hb (hnames.grows hgrows)) ?_)
    intro m' g v h w hgrows hv hw
    have hjoined : m'.Tells (if v.isNonzero then g else h) (if v.isNonzero then v else w) := by
      split
      · exact hv
      · exact hw
    refine .of_eq (bind_outline g) ?_
    rw [hv.outline.2.1]
    exact joined_runs (hnames.layers.grows hgrows) hjoined
  | .conjunction a b, _, _, _, _, _, htold, hnames => by
    obtain ⟨ha, hb⟩ := Bool.and_eq_true_iff.1 htold
    unfold Expr.act Expr.eval
    refine runs_in_role (both_run (act_runs a ha hnames) (fun _ hgrows => act_runs b hb (hnames.grows hgrows)) ?_)
    intro m' g v h w hgrows hv hw
    have hjoined : m'.Tells (if v.isNonzero then h else g) (if v.isNonzero then w else v) := by
      split
      · exact hw
      · exact hv
    refine .of_eq (bind_outline g) ?_
    rw [hv.outline.2.1]
    exact joined_runs (hnames.layers.grows hgrows) hjoined
  | .instanceOf a type, _, _, _, _, _, htold, hnames => by
    unfold Expr.act Expr.eval
    refine runs_in_role ((act_runs a htold hnames).bind fun m' h v _ hv => .of_eq (bind_outline h) ?_)
    rw [isInstance_of_kind (Memory.Holds.outline hv |>.1)]
    exact plain_runs rfl
  | .choose condition yes none, _, _, _, _, _, htold, hnames => by
    obtain ⟨hcondition, hyes⟩ := Bool.and_eq_true_iff.1 htold
    unfold Expr.act Expr.eval
    refine (act_runs condition hcondition hnames).bind fun m' h v hgrows hv => .of_eq (bind_outline h) ?_
    rw [Memory.Holds.outline hv |>.2.2]
    split
    · exact act_runs yes hyes (hnames.grows hgrows)
    · exact runs_in_role nothing_runs
  | .choose condition yes (some no), _, _, _, _, _, htold, hnames => by
    obtain ⟨hcondition, hbranches⟩ := Bool.and_eq_true_iff.1 htold
    obtain ⟨hyes, hno⟩ := Bool.and_eq_true_iff.1 hbranches
    unfold Expr.act Expr.eval
    refine (act_runs condition hcondition hnames).bind fun m' h v hgrows hv => .of_eq (bind_outline h) ?_
    rw [Memory.Holds.outline hv |>.2.2]
    split
    · exact act_runs yes hyes (hnames.grows hgrows)
    · exact act_runs no hno (hnames.grows hgrows)
  | .loop bindings body, _, _, _, _, _, htold, hnames => by
    obtain ⟨hbindings, hbody⟩ := Bool.and_eq_true_iff.1 htold
    unfold Expr.act Expr.eval
    refine runs_in_role ((actDomains_runs bindings hbindings hnames).bind fun m' domains told hgrows hdomains => ?_)
    have hnames' := hnames.grows hgrows
    have hrounds := collect_runs (m := m') (fun _ _ _ hgrows hlayers =>
      act_runs body hbody ⟨hnames'.registry.grows hgrows, hlayers⟩) (loopLayers_tells hnames'.layers hdomains) .nil
    exact hrounds.bind fun _ _ _ _ hall => alloc_runs hall
  | .quantified q bindings condition, _, _, _, _, _, htold, hnames => by
    obtain ⟨hbindings, hcondition⟩ := Bool.and_eq_true_iff.1 htold
    unfold Expr.act Expr.eval
    refine runs_in_role ((actDomains_runs bindings hbindings hnames).bind fun m' domains told hgrows hdomains => ?_)
    have hnames' := hnames.grows hgrows
    have hrounds := decide_runs (m := m') q (fun _ _ _ hgrows hlayers =>
      act_runs condition hcondition ⟨hnames'.registry.grows hgrows, hlayers⟩)
      (loopLayers_tells hnames'.layers hdomains)
    refine hrounds.bind fun _ holds holds' _ hholds => ?_
    subst hholds
    exact plain_runs rfl
  | .range a b, _, _, _, _, _, htold, hnames => by
    obtain ⟨ha, hb⟩ := Bool.and_eq_true_iff.1 htold
    unfold Expr.act Expr.eval
    refine runs_in_role (both_run (act_runs a ha hnames) (fun _ hgrows => act_runs b hb (hnames.grows hgrows)) ?_)
    intro m' g v h w hgrows hv hw
    refine .of_eq ((bind_value hv).trans (bind_value hw)) (.ofExcept_bind fun items _ => alloc_runs ?_)
    exact wholes_tell items
  | .call source callee arguments, _, _, _, _, _, htold, hnames => by
    obtain ⟨hcallee, harguments⟩ := Bool.and_eq_true_iff.1 htold
    unfold Expr.act Expr.eval
    refine runs_in_role ((act_runs callee hcallee hnames).bind fun m₁ g f hfirst hf => .of_eq (bind_outline g) ?_)
    have hcallable : (m₁.outline g).isCallable = f.isCallable := by
      unfold Value.isCallable
      rw [Memory.Holds.outline hf |>.1]
    rw [hcallable]
    split
    · exact .fail _
    · refine (actItems_runs arguments harguments (hnames.grows hfirst)).bind fun m₂ hs vs hsecond hvs => ?_
      exact invoke_runs (Memory.Holds.grows hf hsecond) hvs
  | .path target field, _, _, _, _, _, htold, hnames => by
    unfold Expr.act Expr.eval
    exact runs_in_role ((act_runs target htold hnames).bind fun _ _ _ _ hv => fieldOrFields_runs hv field)
  | .filter target condition, _, _, _, _, _, htold, hnames => by
    obtain ⟨htarget, hcondition⟩ := Bool.and_eq_true_iff.1 htold
    unfold Expr.act Expr.eval
    refine runs_in_role ((act_runs target htarget hnames).bind fun m' h v hgrows hv => ?_)
    have hnames' := hnames.grows hgrows
    exact select_runs (fun _ _ _ hgrows hlayers =>
      act_runs condition hcondition ⟨hnames'.registry.grows hgrows, hlayers⟩) hnames'.layers hv
  | .test site op operand, _, 0, _, _, _, htold, _ => by
    obtain ⟨-, hnone⟩ := Bool.and_eq_true_iff.1 htold
    cases hnone
  | .test site op operand, role, n + 1, m, layers, scope, htold, hnames => by
    obtain ⟨hrole, hoperand⟩ := Bool.and_eq_true_iff.1 htold
    unfold Expr.act Expr.eval
    refine posed_runs hrole fun serial => .relation (fun m' hgrows => ?_) hnames.layers
    exact act_runs operand hoperand (hnames.grows hgrows)
  | .interval site includesStart start stop includesStop, role, _, _, _, _, htold, hnames => by
    obtain ⟨hrole, hbounds⟩ := Bool.and_eq_true_iff.1 htold
    obtain ⟨hstart, hstop⟩ := Bool.and_eq_true_iff.1 hbounds
    unfold Expr.act Expr.eval
    refine both_run (act_runs start hstart hnames) (fun _ hgrows => act_runs stop hstop (hnames.grows hgrows)) ?_
    intro m' g v h w hgrows hv hw
    exact posed_runs hrole fun serial => .interval hv hw (hnames.layers.grows hgrows)

theorem actItems_runs : ∀ (items : List Expr) {role : Role} {n : Nat} {m : Memory} {layers : HeldLayers}
    {scope : Scope}, areTold items role n = true → m.TellsNames registry entries layers scope →
      RunsAs m (actItems (actWithin registry n) registry items layers) (evalItems entries items scope)
        fun m => List.Forall₂ (role.Gives (actWithin registry n) m)
  | [], _, _, _, _, _, _, _ => .pure .nil
  | e :: rest, _, _, _, _, _, htold, hnames => by
    obtain ⟨he, hrest⟩ := Bool.and_eq_true_iff.1 htold
    unfold actItems evalItems
    refine (act_runs e he hnames).bind fun m₁ g v hgrows hv => ?_
    refine (actItems_runs rest hrest (hnames.grows hgrows)).bind fun m₂ hs vs hgrows' hall => .pure ?_
    exact .cons (hv.grows hgrows') hall

theorem actEntries_runs : ∀ (fields : List (String × Expr)) {n : Nat} {m : Memory} {layers : HeldLayers}
    {scope : Scope}, entriesTold fields n = true → m.TellsNames registry entries layers scope →
      RunsAs m (actEntries (actWithin registry n) registry fields layers) (evalEntries entries fields scope)
        Memory.TellsFields
  | [], _, _, _, _, _, _ => .pure .nil
  | (key, e) :: rest, _, _, _, _, htold, hnames => by
    obtain ⟨he, hrest⟩ := Bool.and_eq_true_iff.1 htold
    unfold actEntries evalEntries
    refine (act_runs e he hnames).bind fun m₁ g v hgrows hv => ?_
    refine (actEntries_runs rest hrest (hnames.grows hgrows)).bind fun m₂ hs vs hgrows' hall => .pure ?_
    exact .cons ⟨rfl, Memory.Holds.grows hv hgrows'⟩ hall

theorem actDomains_runs : ∀ (bindings : List (String × Expr)) {n : Nat} {m : Memory} {layers : HeldLayers}
    {scope : Scope}, entriesTold bindings n = true → m.TellsNames registry entries layers scope →
      RunsAs m (actDomains (actWithin registry n) registry bindings layers) (evalDomains entries bindings scope)
        Memory.TellsDomains
  | [], _, _, _, _, _, _ => .pure .nil
  | (key, e) :: rest, _, _, _, _, htold, hnames => by
    obtain ⟨he, hrest⟩ := Bool.and_eq_true_iff.1 htold
    unfold actDomains evalDomains
    refine (act_runs e he hnames).bind fun m₁ g v hgrows hv => ?_
    refine (domain_runs key hv).bind fun m₂ hs vs hgrows' hall => ?_
    have hafter := hgrows.trans hgrows'
    refine (actDomains_runs rest hrest (hnames.grows hafter)).bind fun m₃ others told hgrows'' hothers => .pure ?_
    exact .cons ⟨rfl, Memory.HoldsAll.grows hall hgrows''⟩ hothers

end

/-- A test is asked where a value is looked for among tests, and not where it is an element of a list. -/
example : (member (.name "x") (.list [.test 0 .less (.name "y")])).isTold .data 1 = true ∧
    (list [.test 0 .less (.name "y")]).isTold .data 1 = false := ⟨rfl, rfl⟩

end Expr

/-! ## Unary tests -/

namespace UnaryTests

variable {m m' : Memory} {h : Held} {v w : Value} {hs : List Held} {vs : List Value} {layers : HeldLayers}
  {scope : Scope} {registry : HeldFields} {entries : Fields} {ask : Held.Asking} {result : Held}
  {soFar next : Option Held} {told toldNext : Option Value}

theorem rel_grows (hrel : Option.Rel m.Tells soFar told) (hgrows : m.Grows m') : Option.Rel m'.Tells soFar told := by
  cases hrel with
  | none => exact .none
  | some hv => exact .some (hv.grows hgrows)

theorem combine_runs (hfar : Option.Rel m.Tells soFar told) (hnext : Option.Rel m.Tells next toldNext) :
    RunsAs m (combineHeld soFar next) (pure (combine told toldNext) : Eval (Option Value))
      fun m => Option.Rel m.Tells := by
  unfold combineHeld combine
  cases hfar with
  | none => exact .pure hnext
  | @some g u hu =>
    refine .of_eq (bind_outline g) ?_
    rw [hu.outline.2.1]
    dsimp only
    split
    · exact .pure (.some hu)
    · exact .pure hnext

theorem outcomeOf_runs (hw : m.Offers ask result w) (hv : m.Tells h v) :
    RunsAs m (heldOutcomeOf ask result h) (outcomeOf w v) Memory.Tells := by
  refine .of_eq (bind_outline result) ?_
  cases hw with
  | told hw =>
    obtain ⟨hkind, -, -⟩ := hw.outline
    by_cases hnull : w = .null
    · subst hnull
      rw [Memory.held_of_listless hw rfl]
      exact nothing_runs
    by_cases hboolean : ∃ b, w = .boolean b
    · obtain ⟨b, rfl⟩ := hboolean
      rw [Memory.held_of_listless hw rfl]
      exact plain_runs rfl
    split
    · rename_i hshape
      rw [hshape] at hkind
      exact absurd (Value.null_of_kind hkind.symm) hnull
    · rename_i hshape
      rw [hshape] at hkind
      exact absurd (Value.boolean_of_kind hkind.symm) hboolean
    rw [match_none hw]
    refine .of_eq ((bind_value hv).trans (bind_value hw)) ?_
    have hequal : outcomeOf w v = pure (if w.sameKind v then .boolean (w.eqv v) else .null) := by
      unfold outcomeOf
      split
      · exact absurd rfl hnull
      · exact absurd ⟨_, rfl⟩ hboolean
      · cases hw with
        | plain hlistless => cases hlistless
      · rfl
    rw [hequal]
    refine plain_runs ?_
    split <;> rfl
  | test hp =>
    obtain ⟨answered, hmatch, hruns⟩ := match_runs hp hv
    cases hp with
    | relation =>
      dsimp only [Memory.outline, Held.mark]
      rw [hmatch]
      exact hruns
    | interval =>
      dsimp only [Memory.outline, Held.mark]
      rw [hmatch]
      exact hruns

theorem outcomeOfElement_runs (hw : m.Offers ask result w) (hv : m.Tells h v) :
    RunsAs m (heldOutcomeOfElement ask result h) (outcomeOfElement w v) Memory.Tells := by
  by_cases hlist : ∃ place, result = .list place
  · obtain ⟨place, rfl⟩ := hlist
    cases hw with
    | told hw =>
      obtain ⟨ws, rfl, hall⟩ := Memory.tells_list hw
      exact .of_eq ((bind_value hv).trans ((bind_reads _).trans (bind_values hall))) (plain_runs rfl)
    | test hp => cases hp
  · have hheld : heldOutcomeOfElement ask result h = heldOutcomeOf ask result h := by
      unfold heldOutcomeOfElement
      split
      · exact absurd ⟨_, rfl⟩ hlist
      · rfl
    have htold : outcomeOfElement w v = outcomeOf w v := by
      unfold outcomeOfElement
      split
      · obtain ⟨place, -, rfl, -⟩ := list_of_offers hw
        exact absurd ⟨place, rfl⟩ hlist
      · rfl
    rw [hheld, htold]
    exact outcomeOf_runs hw hv

theorem through_outcomes {place : Nat} (hplace : m.places[place]? = some hs)
    (hall : List.Forall₂ (m.Offers ask) hs vs) (hv : m.Tells h v) :
    RunsAs m (Act.through place (fun soFar element => do
      let next ← heldOutcomeOfElement ask element h
      return (← combineHeld soFar (some next), false)) none) (outcomeOfElements v none vs)
      fun m => Option.Rel m.Tells := by
  have hwalk : WalksAs ask (fun soFar element => do
      let next ← heldOutcomeOfElement ask element h
      return (← combineHeld soFar (some next), false)) (outcomeOfElements v)
      (fun m soFar told => Option.Rel m.Tells soFar told ∧ m.Tells h v) (fun m => Option.Rel m.Tells) := by
    refine ⟨?_, ?_⟩
    · rintro m soFar told ⟨hfar, -⟩
      exact .pure hfar
    · rintro m soFar told element w rest k ⟨hfar, hv⟩ hw hlater
      have hround : outcomeOfElements v told (w :: rest) =
          (outcomeOfElement w v >>= fun o => pure (combine told (some o))) >>= fun s => outcomeOfElements v s rest := by
        rw [bind_assoc]
        rfl
      have hvisit : RunsAs m (do
          let next ← heldOutcomeOfElement ask element h
          return (← combineHeld soFar (some next), false))
          (outcomeOfElement w v >>= fun o => pure (combine told (some o)))
          fun m p o => p.2 = false ∧ Option.Rel m.Tells p.1 o ∧ m.Tells h v := by
        refine (outcomeOfElement_runs hw hv).bind fun m' g u hgrows hu => ?_
        rw [← bind_pure (pure (combine told (some u)) : Eval (Option Value))]
        refine (combine_runs (rel_grows hfar hgrows) (.some hu)).bind fun m'' s t hgrows' hs => .pure ?_
        exact ⟨rfl, hs, hv.grows (hgrows.trans hgrows')⟩
      rw [hround]
      refine hvisit.bind fun m' p o hgrows hp => ?_
      obtain ⟨s, decided⟩ := p
      obtain ⟨rfl, hs, hv'⟩ := hp
      exact hlater m' s o hgrows ⟨hs, hv'⟩
  exact through_runs hwalk hplace hall ⟨.none, hv⟩

theorem outcome_runs (hw : m.OffersAny ask result w) (hv : m.Tells h v) :
    RunsAs m (heldOutcome ask result h) (outcome w v) fun m => Option.Rel m.Tells := by
  by_cases hlist : ∃ place, result = .list place
  · obtain ⟨place, rfl⟩ := hlist
    obtain ⟨hs, ws, rfl, hplace, hall⟩ := elements_of_offersAny hw
    exact through_outcomes hplace hall hv
  · have hheld : heldOutcome ask result h = do return some (← heldOutcomeOf ask result h) := by
      unfold heldOutcome
      split
      · exact absurd ⟨_, rfl⟩ hlist
      · rfl
    cases hw with
    | list => exact absurd ⟨_, rfl⟩ hlist
    | one hw =>
      have htold : outcome w v = do return some (← outcomeOf w v) := by
        unfold outcome
        split
        · obtain ⟨place, -, rfl, -⟩ := list_of_offers hw
          exact absurd ⟨place, rfl⟩ hlist
        · rfl
      rw [hheld, htold]
      exact (outcomeOf_runs hw hv).bind fun _ _ _ _ hu => .pure (.some hu)

theorem outcomes_runs (n : Nat) (tests : List Expr) : ∀ {m : Memory} {h : Held} {v : Value} {soFar : Option Held}
    {told : Option Value}, Expr.areTold tests .tests n = true → m.TellsNames registry entries layers scope →
      m.Tells h v → Option.Rel m.Tells soFar told →
        RunsAs m (heldOutcomes (Expr.actWithin registry n) registry layers h soFar tests)
          (outcomes entries scope v told tests) fun m => Option.Rel m.Tells := by
  induction tests with
  | nil => exact fun _ _ _ hfar => .pure hfar
  | cons test rest ih =>
    intro m h v soFar told htold hnames hv hfar
    obtain ⟨htest, hrest⟩ := Bool.and_eq_true_iff.1 htold
    refine (Expr.act_runs test htest hnames).bind fun m₁ result w hfirst hw => ?_
    refine (outcome_runs hw (hv.grows hfirst)).bind fun m₂ next toldNext hsecond hnext => ?_
    have hgrows := hfirst.trans hsecond
    show RunsAs m₂ _ ((pure (combine told toldNext) : Eval (Option Value)) >>= fun c =>
      outcomes entries scope v c rest) _
    refine (combine_runs (rel_grows hfar hgrows) hnext).bind fun m₃ c c' hthird hc => ?_
    have hafter := hgrows.trans hthird
    exact ih hrest (hnames.grows hafter) (hv.grows hafter) hc

/-- **Unary tests run in memory as values tell.** -/
theorem act_runs {n : Nat} {ts : UnaryTests} (htold : Expr.areTold ts.tests .tests n = true)
    (hnames : m.TellsNames registry entries layers scope) (hv : m.Tells h v) :
    RunsAs m (ts.act (Expr.actWithin registry n) registry layers h) (ts.eval entries scope v) Memory.Tells := by
  refine (outcomes_runs n ts.tests htold hnames hv .none).bind fun m' o told _ hrel => ?_
  cases hrel with
  | none => exact nothing_runs
  | @some g w hw =>
    by_cases hnull : w = .null
    · subst hnull
      rw [Memory.held_of_listless hw rfl]
      exact nothing_runs
    obtain ⟨hkind, hnonzero, -⟩ := hw.outline
    generalize hshape : m'.outline g = shape at hkind hnonzero
    cases w with
    | null => exact absurd rfl hnull
    | _ =>
      refine .of_eq (bind_outline g) ?_
      rw [hshape]
      dsimp only
      split
      · exact absurd (Value.null_of_kind hkind.symm) hnull
      rw [hnonzero]
      split
      · exact plain_runs rfl
      · exact .pure hw

end UnaryTests

end Criterion

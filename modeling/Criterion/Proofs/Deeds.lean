import Criterion.Memory.Sitting
import Criterion.Proofs.Limits

/-!
# How evaluation in memory fails

What happens in memory fails as what values tell does: with a failure that is announced, at a limit of
numbers, or in a call that does not fit. An act is followed step by step, whatever the memory is that each
step finds.

* `Act.FailsAs`: an act fails only in ways that are allowed, in every memory.
* `Held.invoke_fails`: so do calls, if the operands of tests are evaluated so.
* `Expr.act_fails`, `UnaryTests.act_fails`: **so does the evaluation of every expression and of all tests.**
-/

namespace Criterion

/-- An act fails only in ways that are allowed, whatever it finds in memory. -/
def Act.FailsAs {ε α : Type} (R : Failure → Prop) (x : Act ε α) : Prop :=
  ∀ m, Criterion.FailsAs R (x m).2.outcome

section Acts

variable {ε δ α β σ : Type} {R : Failure → Prop}

namespace Act

variable {x : Act ε α} {k : α → Act ε β} {m : Memory}

/-- What comes after an outcome finds the memory that was left. -/
theorem bind_of_ok {a : α} (h : (x m).2.outcome = .ok a) :
    (x >>= k) m = ((k a (x m).1).1,
      ⟨(x m).2.events ++ (k a (x m).1).2.events, (k a (x m).1).2.outcome⟩) := by
  show Act.bind x k m = _
  unfold Act.bind
  generalize x m = first at h
  obtain ⟨m', events, outcome⟩ := first
  subst h
  rfl

/-- A failure ends all. -/
theorem bind_of_error {f : Failure} (h : (x m).2.outcome = .error f) :
    (x >>= k) m = ((x m).1, ⟨(x m).2.events, .error f⟩) := by
  show Act.bind x k m = _
  unfold Act.bind
  generalize x m = first at h
  obtain ⟨m', events, outcome⟩ := first
  subst h
  rfl

end Act

namespace Act.FailsAs

theorem ofRun {r : Run ε α} (h : Criterion.FailsAs R r.outcome) : (Act.ofRun r).FailsAs R := fun _ => h

theorem ofExcept {r : Except Failure α} (h : Criterion.FailsAs R r) :
    (Act.ofExcept r : Act ε α).FailsAs R := fun _ => h

theorem ok (a : α) : (pure a : Act ε α).FailsAs R := fun _ => .ok a

theorem fail {f : Failure} (h : R f) : (Act.fail f : Act ε α).FailsAs R := fun _ => .error h

theorem reads (f : Memory → α) : (Act.reads f : Act ε α).FailsAs R := fun m => .ok (f m)

/-- What is done with something that is read. -/
theorem reads_bind {f : Memory → α} {k : α → Act ε β} (hk : ∀ m, (k (f m)).FailsAs R) :
    (Act.reads f >>= k).FailsAs R := by
  intro m
  rw [Act.bind_of_ok rfl]
  exact hk m m

theorem bind {x : Act ε α} {k : α → Act ε β} (hx : x.FailsAs R) (hk : ∀ a, (k a).FailsAs R) :
    (x >>= k).FailsAs R := by
  intro m
  cases hfirst : (x m).2.outcome with
  | error f =>
    rw [Act.bind_of_error hfirst]
    exact .error (hx m f hfirst)
  | ok a =>
    rw [Act.bind_of_ok hfirst]
    exact hk a _

theorem ofRun_bind {r : Run ε α} {k : α → Act ε β} (hr : Criterion.FailsAs R r.outcome)
    (hk : ∀ a, r.outcome = .ok a → (k a).FailsAs R) : (Act.ofRun r >>= k).FailsAs R := by
  intro m
  cases hfirst : r.outcome with
  | error f =>
    rw [Act.bind_of_error hfirst]
    exact .error (hr f hfirst)
  | ok a =>
    rw [Act.bind_of_ok hfirst]
    exact hk a hfirst m

theorem ofExcept_bind {r : Except Failure α} {k : α → Act ε β} (hr : Criterion.FailsAs R r)
    (hk : ∀ a, r = .ok a → (k a).FailsAs R) : (Act.ofExcept r >>= k).FailsAs R :=
  ofRun_bind hr hk

theorem mapEvents {x : Act ε α} (hx : x.FailsAs R) (f : ε → List δ) : (x.mapEvents f).FailsAs R :=
  fun m => hx m

end Act.FailsAs

/-- A way through a list fails as its visits do, or where it has no end. -/
theorem through_fails (hbeyond : R .beyond) (place : Nat) {visit : σ → Held → Act ε (σ × Bool)}
    (hvisit : ∀ s h, (visit s h).FailsAs R) (s : σ) : (Act.through place visit s).FailsAs R := by
  have halong : ∀ fuel next s, (Act.along place visit fuel next s).FailsAs R := by
    intro fuel
    induction fuel with
    | zero => exact fun _ _ => .fail hbeyond
    | succ fuel ih =>
      intro next s
      unfold Act.along
      refine (Act.FailsAs.reads _).bind fun hs => ?_
      split
      · exact .ok _
      · refine (hvisit s _).bind fun p => ?_
        obtain ⟨s', decided⟩ := p
        dsimp only
        split
        · exact .ok _
        · exact ih _ _
  exact (Act.FailsAs.reads _).bind fun hs => halong _ _ _

end Acts

/-! ## Values in memory -/

/-- The failures that are allowed where calls are made: those that are announced, and the limits of calls. -/
structure CallsAllowed (R : Failure → Prop) : Prop where
  documented : ∀ f : Failure, f.Documented → R f
  limits : ∀ f ∈ callLimits, R f

section Memory

variable {ε : Type} {R : Failure → Prop}

mutual

theorem valueBy_fails {list : Nat → Except Failure Value} (hlist : ∀ place, FailsAs R (list place)) :
    ∀ h : Held, FailsAs R (h.valueBy list)
  | .plain v => .ok v
  | .list place => hlist place
  | .function place _ => (hlist place).bind fun _ _ => .ok _
  | .context fields => (fieldsBy_fails hlist fields).bind fun _ _ => .ok _
  | .relation .. | .interval .. => .ok _

theorem fieldsBy_fails {list : Nat → Except Failure Value} (hlist : ∀ place, FailsAs R (list place)) :
    ∀ fields : List (String × Held), FailsAs R (Held.fieldsBy list fields)
  | [] => .ok _
  | (_, h) :: rest =>
    (valueBy_fails hlist h).bind fun _ _ => (fieldsBy_fails hlist rest).bind fun _ _ => .ok _

end

theorem valuesBy_fails {list : Nat → Except Failure Value} (hlist : ∀ place, FailsAs R (list place))
    (hs : List Held) : FailsAs R (Held.valuesBy list hs) := by
  induction hs with
  | nil => exact .ok _
  | cons h rest ih => exact (valueBy_fails hlist h).bind fun _ _ => ih.bind fun _ _ => .ok _

/-- A list is told unless it lies too deep in itself. -/
theorem list_fails (hbeyond : R .beyond) (m : Memory) : ∀ depth place, FailsAs R (m.list depth place) := by
  intro depth
  induction depth with
  | zero => exact fun _ => .error hbeyond
  | succ depth ih =>
    intro place
    unfold Memory.list
    split
    · exact (valuesBy_fails ih _).bind fun _ _ => .ok _
    · exact .error hbeyond

theorem value_fails (hbeyond : R .beyond) (h : Held) : (Act.value h : Act ε Value).FailsAs R :=
  fun m => valueBy_fails (list_fails hbeyond m _) h

theorem values_fails (hbeyond : R .beyond) (hs : List Held) : (Act.values hs : Act ε (List Value)).FailsAs R :=
  fun m => valuesBy_fails (list_fails hbeyond m _) hs

theorem hold_fails (v : Value) : (Act.hold v : Act ε Held).FailsAs R := fun _ => .ok _

theorem write_fails (place : Nat) (hs : List Held) : (Act.write place hs : Act ε Unit).FailsAs R := fun _ => .ok _

theorem alloc_fails (hs : List Held) : (Act.alloc hs : Act ε Held).FailsAs R := fun _ => .ok _

theorem serial_fails : (Act.serial : Act ε Nat).FailsAs R := fun _ => .ok _

/-! ### Functions of lists -/

variable (hR : CallsAllowed R)
include hR

theorem find_fails (place : Nat) (h : Held) (start stop : Nat) :
    (Held.find place h start stop : Act ε Nat).FailsAs R := by
  have hbeyond : R .beyond := hR.limits _ (by decide)
  refine (Act.FailsAs.reads _).bind fun hs => (values_fails hbeyond hs).bind fun vs => ?_
  refine (value_fails hbeyond h).bind fun v => ?_
  split
  · exact .ok _
  · exact .fail (hR.limits _ (by decide))

theorem takeOut_fails (place : Nat) (i : Int) : (Held.takeOut place i : Act ε Held).FailsAs R := by
  have habsent : R .absentPlace := hR.limits _ (by decide)
  unfold Held.takeOut
  split
  · refine (Act.FailsAs.reads _).bind fun hs => ?_
    dsimp only
    split
    · exact (write_fails _ _).bind fun _ => .ok _
    · exact .fail habsent
  · exact .fail (hR.limits _ (by decide))

theorem sort_fails (place : Nat) : (Held.sort place : Act ε Held).FailsAs R := by
  have hbeyond : R .beyond := hR.limits _ (by decide)
  refine (Act.FailsAs.reads _).bind fun hs => (values_fails hbeyond hs).bind fun vs => ?_
  split
  · exact (write_fails _ _).bind fun _ => .ok _
  · exact .fail hbeyond

theorem parts_fails (h : Held) : (h.parts : Act ε (List Held)).FailsAs R := by
  unfold Held.parts
  split
  · exact .reads _
  · exact .ok _
  · exact .ok _
  · exact .fail (hR.limits _ (by decide))

theorem listFunction_fails (place : Nat) (name : String) (arguments : List Held) :
    (Held.listFunction place name arguments : Act ε Held).FailsAs R := by
  have hbeyond : R .beyond := hR.limits _ (by decide)
  have hmisused : R .misusedCall := hR.limits _ (by decide)
  refine (Act.FailsAs.reads _).bind fun hs => ?_
  split
  case h_1 => exact (write_fails _ _).bind fun _ => .ok _
  case h_2 => exact (write_fails _ _).bind fun _ => .ok _
  case h_3 => exact alloc_fails _
  case h_4 => exact (value_fails hbeyond _).bind fun _ => (values_fails hbeyond _).bind fun _ => .ok _
  case h_5 => exact (parts_fails hR _).bind fun _ => (write_fails _ _).bind fun _ => .ok _
  case h_6 => exact (find_fails hR _ _ _ _).bind fun _ => .ok _
  case h_7 =>
    split
    · exact (find_fails hR _ _ _ _).bind fun _ => .ok _
    · exact .fail hmisused
  case h_8 =>
    split
    · exact (find_fails hR _ _ _ _).bind fun _ => .ok _
    · exact .fail hmisused
  case h_9 =>
    split
    · split
      · exact (write_fails _ _).bind fun _ => .ok _
      · exact .fail (hR.limits _ (by decide))
    · exact .fail hmisused
  case h_10 => exact takeOut_fails hR _ _
  case h_11 =>
    split
    · exact takeOut_fails hR _ _
    · exact .fail hmisused
  case h_12 => exact (find_fails hR _ _ _ _).bind fun _ => (write_fails _ _).bind fun _ => .ok _
  case h_13 => exact (write_fails _ _).bind fun _ => .ok _
  case h_14 => exact sort_fails hR _
  case h_15 => exact .fail hmisused

/-! ### Calls -/

theorem leaves_fails (m : Memory) : ∀ depth place, FailsAs R (Held.leaves m depth place) := by
  have hbeyond : R .beyond := hR.limits _ (by decide)
  have hby : ∀ {inner : Nat → Except Failure (List Held)}, (∀ place, FailsAs R (inner place)) →
      ∀ hs : List Held, FailsAs R (Held.leavesBy inner hs) := by
    intro inner hinner hs
    induction hs with
    | nil => exact .ok _
    | cons h rest ih =>
      cases h with
      | list place => exact (hinner place).bind fun _ _ => ih.bind fun _ _ => .ok _
      | _ => exact ih.bind fun _ _ => .ok _
  intro depth
  induction depth with
  | zero => exact fun _ => .error hbeyond
  | succ depth ih => exact fun place => hby ih _

/-- Builtins fail in memory as they do on values. -/
theorem applyHeld_fails (b : Builtin) (arguments : List Held) :
    (Held.apply b arguments : Act ε Held).FailsAs R := by
  have hbeyond : R .beyond := hR.limits _ (by decide)
  have hother : ∀ arguments : List Held, (do
      let vs ← Act.values arguments
      Act.hold (← Act.ofExcept (b.apply vs)) : Act ε Held).FailsAs R := by
    intro arguments
    refine (values_fails hbeyond _).bind fun vs => ?_
    refine (Act.FailsAs.ofExcept ?_).bind fun v => hold_fails v
    exact apply_fails hR.documented (hR.limits _ (by decide)) (hR.limits _ (by decide))
      (hR.limits _ (by decide)) b vs
  unfold Held.apply
  split
  · exact (Act.FailsAs.reads _).bind fun _ => .ok _
  · exact (Act.FailsAs.reads _).bind fun _ => alloc_fails _
  · refine (Act.FailsAs.reads _).bind fun found => ?_
    split
    · exact alloc_fails _
    · exact .ok _
  · exact (Act.FailsAs.reads _).bind fun _ => alloc_fails _
  · exact (Act.FailsAs.reads _).bind fun _ => (values_fails hbeyond _).bind fun _ => alloc_fails _
  · refine Act.FailsAs.reads_bind fun m => ?_
    exact (Act.FailsAs.ofExcept (leaves_fails hR m _ _)).bind fun _ => alloc_fails _
  · exact hother _

theorem callHeld_fails (callee : Held) (arguments : List Held) : (callee.call arguments).FailsAs R := by
  have hbeyond : R .beyond := hR.limits _ (by decide)
  unfold Held.call
  split
  · refine (Act.FailsAs.ofExcept (check_fails hR.documented _ _ _)).bind fun _ => ?_
    exact applyHeld_fails hR _ _
  · exact (Act.FailsAs.ofExcept (check_fails hR.documented _ _ _)).bind fun _ => alloc_fails _
  · refine (values_fails hbeyond _).bind fun vs => ?_
    exact (Act.FailsAs.ofRun (.ok _)).bind fun _ => .ok _
  · refine (Act.FailsAs.reads _).bind fun hs => ?_
    split
    · exact applyHeld_fails hR _ _
    · exact .fail hbeyond
  · refine (values_fails hbeyond _).bind fun vs => ?_
    exact (Act.FailsAs.ofExcept (callMethod_fails hR.documented hR.limits _ _ _)).bind fun _ => hold_fails _
  · exact .fail hbeyond
  · exact listFunction_fails hR _ _ _
  · exact .fail (hR.limits _ (by decide))

end Memory

/-! ## Names -/

section Names

variable {R : Failure → Prop}

theorem fieldOrFields_fails (h : Held) (name : String) : (h.fieldOrFields name).FailsAs R := by
  unfold Held.fieldOrFields
  split
  · exact (Act.FailsAs.reads _).bind fun _ => alloc_fails _
  · exact .ok _

theorem path_fails (names : List String) (h : Held) : (Held.path names h).FailsAs R := by
  induction names generalizing h with
  | nil => exact .ok _
  | cons name rest ih => exact (fieldOrFields_fails h name).bind fun _ => ih _

theorem resolve_fails (layers : HeldLayers) (name : String) : (layers.resolve name).FailsAs R := by
  unfold HeldLayers.resolve
  split
  · exact .ok _
  split
  · exact .ok _
  split
  · exact .ok _
  split
  · exact path_fails _ _
  · exact .ok _

theorem resolveName_fails (registry : HeldFields) (layers : HeldLayers) (name : String) :
    (layers.resolveName registry name).FailsAs R := by
  unfold HeldLayers.resolveName
  split
  · exact resolve_fails _ _
  · exact .ok _
  · exact resolve_fails _ _

theorem reports_fails (layers : HeldLayers) : layers.reports.FailsAs R :=
  (Act.FailsAs.reads _).bind fun _ => .ok _

theorem answerHeld_fails (layers : HeldLayers) (h : Held) (outcome : Option Bool) :
    (Held.answer layers h outcome).FailsAs R := by
  unfold Held.answer
  split
  · refine (reports_fails layers).bind fun asked => ?_
    split <;> exact .ok _
  · exact .ok _
  · exact .ok _

/-- What a connective answers. -/
theorem joined_fails (layers : HeldLayers) (joined : Held) : (do
    if ← layers.reports then return joined
    else return .plain (.boolean (← Act.outline joined).isNonzero) : Deed Held).FailsAs R := by
  refine (reports_fails layers).bind fun asked => ?_
  split
  · exact .ok _
  · exact (Act.FailsAs.reads _).bind fun _ => .ok _

end Names

/-! ## Tests -/

section Tests

variable {R : Failure → Prop} (hR : CallsAllowed R)
include hR

theorem compareHeld_fails (op : Relation) (g h : Held) : (Held.compare? op g h).FailsAs R := by
  have hbeyond : R .beyond := hR.limits _ (by decide)
  exact (value_fails hbeyond g).bind fun _ => (value_fails hbeyond h).bind fun _ => .ok _

theorem eqvHeld_fails (g h : Held) : (g.eqv h).FailsAs R := by
  have hbeyond : R .beyond := hR.limits _ (by decide)
  exact (value_fails hbeyond g).bind fun _ => (value_fails hbeyond h).bind fun _ => .ok _

variable {ask : Held.Asking} (hask : ∀ e layers, (ask e layers).FailsAs R)
include hask

/-- A test fails as its operand does, or at a limit of the numbers that it compares. -/
theorem matchHeld_fails {test h : Held} {answered : Deed Held} (hmatch : test.match? ask h = some answered) :
    answered.FailsAs R := by
  have hbeyond : R .beyond := hR.limits _ (by decide)
  unfold Held.match? at hmatch
  split at hmatch <;> cases hmatch
  · exact (hask _ _).bind fun g => (compareHeld_fails hR _ _ _).bind fun _ => answerHeld_fails _ _ _
  · refine (value_fails hbeyond _).bind fun v => (value_fails hbeyond _).bind fun start => ?_
    refine (value_fails hbeyond _).bind fun stop => (Act.FailsAs.ofExcept ?_).bind fun _ =>
      answerHeld_fails _ _ _
    exact includes_fails (hR.limits _ (by decide)) _ _
  · exact .fail hbeyond

theorem invoke_fails (callee : Held) (arguments : List Held) : (callee.invoke ask arguments).FailsAs R := by
  unfold Held.invoke
  split
  · rename_i h
    cases hmatch : callee.match? ask h with
    | none => exact callHeld_fails hR _ _
    | some answered => exact matchHeld_fails hR hask hmatch
  · exact callHeld_fails hR _ _

theorem passesHeld_fails (h test : Held) : (h.passes ask test).FailsAs R := by
  unfold Held.passes
  split
  · rename_i answered hmatch
    exact (matchHeld_fails hR hask hmatch).bind fun _ => (Act.FailsAs.reads _).bind fun _ => .ok _
  · exact eqvHeld_fails hR _ _

theorem passesAnyHeld_fails (h tests : Held) : (h.passesAny ask tests).FailsAs R := by
  unfold Held.passesAny
  split
  · exact through_fails (hR.limits _ (by decide)) _
      (fun _ test => (passesHeld_fails hR hask h test).bind fun _ => .ok _) _
  · exact passesHeld_fails hR hask _ _

end Tests

/-! ## Evaluation -/

section Evaluation

variable {R : Failure → Prop} {ask : Held.Asking} {body : HeldLayers → Deed Held}

theorem collectHeld_fails (hbody : ∀ layers, (body layers).FailsAs R) (all : List HeldLayers) :
    ∀ results, (collectHeld body results all).FailsAs R := by
  induction all with
  | nil => exact fun _ => .ok _
  | cons layers rest ih =>
    exact fun results => (alloc_fails _).bind fun _ => (hbody _).bind fun _ => ih _

theorem decideHeld_fails (hbody : ∀ layers, (body layers).FailsAs R) (q : Quantifier)
    (all : List HeldLayers) : (decideHeld q body all).FailsAs R := by
  induction all with
  | nil => exact .ok _
  | cons layers rest ih =>
    refine (hbody _).bind fun _ => (Act.FailsAs.reads _).bind fun v => ?_
    cases q with
    | every =>
      dsimp only
      split
      · exact ih
      · exact .ok _
    | some =>
      dsimp only
      split
      · exact .ok _
      · exact ih

variable (hR : CallsAllowed R) (hask : ∀ e layers, (ask e layers).FailsAs R)
include hR hask

theorem selectHeldWhere_fails (hbody : ∀ layers, (body layers).FailsAs R) (layers : HeldLayers)
    (items : List Held) : (selectHeldWhere ask body layers items).FailsAs R := by
  induction items with
  | nil => exact .ok _
  | cons item rest ih =>
    refine (hbody _).bind fun h => ?_
    have hmatched : ((h.match? ask item).getD (pure h)).FailsAs R := by
      cases hmatch : h.match? ask item with
      | none => exact .ok _
      | some answered => exact matchHeld_fails hR hask hmatch
    exact hmatched.bind fun _ => (Act.FailsAs.reads _).bind fun _ => ih.bind fun _ => .ok _

theorem selectHeld_fails (hbody : ∀ layers, (body layers).FailsAs R) (target : Held) (tag : Option Tag)
    (layers : HeldLayers) : (selectHeld ask target tag body layers).FailsAs R := by
  have hbeyond : R .beyond := hR.limits _ (by decide)
  have helements : target.elements.FailsAs R := by
    unfold Held.elements
    split
    · exact .reads _
    · exact .ok _
  refine helements.bind fun hs => (Act.FailsAs.reads _).bind fun shape => ?_
  split
  · exact .ok _
  split
  · refine (hbody _).bind fun position => (value_fails hbeyond _).bind fun v => .ofExcept ?_
    refine FailsAs.bind (atPosition_fails (hR.limits _ (by decide)) (hR.limits _ (by decide)) _ v) fun w _ => ?_
    split <;> exact .ok _
  · refine (hbody _).bind fun _ => (Act.FailsAs.reads _).bind fun v => ?_
    split
    · exact alloc_fails _
    split
    · exact alloc_fails _
    · exact .ok _
  · exact (hbody _).bind fun _ => (value_fails hbeyond _).bind fun _ => (values_fails hbeyond _).bind fun _ =>
      alloc_fails _
  · exact (selectHeldWhere_fails hR hask hbody layers hs).bind fun _ => alloc_fails _

omit hask in
theorem domainHeld_fails (name : String) (h : Held) : (domainHeld name h).FailsAs R := by
  unfold domainHeld
  split
  · exact .reads _
  · refine (value_fails (hR.limits _ (by decide)) _).bind fun v => (Act.FailsAs.ofExcept ?_).bind fun _ => .ok _
    exact domainOf_fails hR.documented (hR.limits _ (by decide)) name v

omit hR hask

namespace Expr

variable (registry : HeldFields)

mutual

/-- **The evaluation of an expression in memory fails only in ways that are allowed**, if the operands of
tests do. -/
theorem act_fails (hR : CallsAllowed R) (hask : ∀ e layers, (ask e layers).FailsAs R) : ∀ (e : Expr) (layers : HeldLayers), (e.act ask registry layers).FailsAs R
  | .null, _ | .boolean _, _ | .number _, _ | .text _, _ | .wildcard, _ | .registered _, _ | .input, _
  | .procedure, _ => by
    unfold Expr.act
    exact .ok _
  | .name n, layers => by
    unfold Expr.act
    exact resolveName_fails _ _ _
  | .list items, layers => by
    unfold Expr.act
    exact (actItems_fails hR hask items layers).bind fun _ => alloc_fails _
  | .context entries, layers => by
    unfold Expr.act
    exact (actEntries_fails hR hask entries layers).bind fun _ => .ok _
  | .unary op a, layers => by
    unfold Expr.act
    exact (act_fails hR hask a layers).bind fun _ => (value_fails (hR.limits _ (by decide)) _).bind fun _ => .ok _
  | .arithmetic op a b, layers => by
    have hbeyond : R .beyond := hR.limits _ (by decide)
    unfold Expr.act
    refine (act_fails hR hask a layers).bind fun _ => (act_fails hR hask b layers).bind fun _ => ?_
    exact (value_fails hbeyond _).bind fun _ => (value_fails hbeyond _).bind fun _ => .ok _
  | .relation op a b, layers => by
    unfold Expr.act
    refine (act_fails hR hask a layers).bind fun _ => (act_fails hR hask b layers).bind fun _ => ?_
    exact (compareHeld_fails hR _ _ _).bind fun _ => answerHeld_fails _ _ _
  | .between a low high, layers => by
    have hbeyond : R .beyond := hR.limits _ (by decide)
    unfold Expr.act
    refine (act_fails hR hask a layers).bind fun _ => (act_fails hR hask low layers).bind fun _ => ?_
    refine (act_fails hR hask high layers).bind fun _ => (value_fails hbeyond _).bind fun _ => ?_
    exact (value_fails hbeyond _).bind fun _ => (value_fails hbeyond _).bind fun _ => answerHeld_fails _ _ _
  | .member a tests, layers => by
    unfold Expr.act
    refine (act_fails hR hask a layers).bind fun _ => (act_fails hR hask tests layers).bind fun _ => ?_
    exact (passesAnyHeld_fails hR hask _ _).bind fun _ => answerHeld_fails _ _ _
  | .disjunction a b, layers => by
    unfold Expr.act
    refine (act_fails hR hask a layers).bind fun _ => (act_fails hR hask b layers).bind fun _ => ?_
    exact (Act.FailsAs.reads _).bind fun _ => joined_fails _ _
  | .conjunction a b, layers => by
    unfold Expr.act
    refine (act_fails hR hask a layers).bind fun _ => (act_fails hR hask b layers).bind fun _ => ?_
    exact (Act.FailsAs.reads _).bind fun _ => joined_fails _ _
  | .instanceOf a type, layers => by
    unfold Expr.act
    exact (act_fails hR hask a layers).bind fun _ => (Act.FailsAs.reads _).bind fun _ => .ok _
  | .choose condition yes none, layers => by
    unfold Expr.act
    refine (act_fails hR hask condition layers).bind fun _ => (Act.FailsAs.reads _).bind fun _ => ?_
    split
    · exact act_fails hR hask yes layers
    · exact .ok _
  | .choose condition yes (some no), layers => by
    unfold Expr.act
    refine (act_fails hR hask condition layers).bind fun _ => (Act.FailsAs.reads _).bind fun _ => ?_
    split
    · exact act_fails hR hask yes layers
    · exact act_fails hR hask no layers
  | .loop bindings body, layers => by
    unfold Expr.act
    refine (actDomains_fails hR hask bindings layers).bind fun _ => ?_
    exact (collectHeld_fails (act_fails hR hask body) _ _).bind fun _ => alloc_fails _
  | .quantified q bindings condition, layers => by
    unfold Expr.act
    refine (actDomains_fails hR hask bindings layers).bind fun _ => ?_
    exact (decideHeld_fails (act_fails hR hask condition) _ _).bind fun _ => .ok _
  | .range a b, layers => by
    have hbeyond : R .beyond := hR.limits _ (by decide)
    unfold Expr.act
    refine (act_fails hR hask a layers).bind fun _ => (act_fails hR hask b layers).bind fun _ => ?_
    refine (value_fails hbeyond _).bind fun v => (value_fails hbeyond _).bind fun w => ?_
    refine (Act.FailsAs.ofExcept ?_).bind fun _ => alloc_fails _
    exact range_fails hR.documented (hR.limits _ (by decide)) v w
  | .call source callee arguments, layers => by
    unfold Expr.act
    refine (act_fails hR hask callee layers).bind fun _ => (Act.FailsAs.reads _).bind fun _ => ?_
    split
    · exact .fail (hR.documented _ rfl)
    · exact (actItems_fails hR hask arguments layers).bind fun _ => invoke_fails hR hask _ _
  | .path target field, layers => by
    unfold Expr.act
    exact (act_fails hR hask target layers).bind fun _ => fieldOrFields_fails _ _
  | .filter target condition, layers => by
    unfold Expr.act
    exact (act_fails hR hask target layers).bind fun _ => selectHeld_fails hR hask (act_fails hR hask condition) _ _ _
  | .test site op operand, layers => by
    unfold Expr.act
    exact (serial_fails).bind fun _ => .ok _
  | .interval site includesStart start stop includesStop, layers => by
    unfold Expr.act
    refine (act_fails hR hask start layers).bind fun _ => (act_fails hR hask stop layers).bind fun _ => ?_
    exact serial_fails.bind fun _ => .ok _

theorem actItems_fails (hR : CallsAllowed R) (hask : ∀ e layers, (ask e layers).FailsAs R) : ∀ (items : List Expr) (layers : HeldLayers),
    (actItems ask registry items layers).FailsAs R
  | [], _ => .ok _
  | e :: rest, layers =>
    (act_fails hR hask e layers).bind fun _ => (actItems_fails hR hask rest layers).bind fun _ => .ok _

theorem actEntries_fails (hR : CallsAllowed R) (hask : ∀ e layers, (ask e layers).FailsAs R) : ∀ (entries : List (String × Expr)) (layers : HeldLayers),
    (actEntries ask registry entries layers).FailsAs R
  | [], _ => .ok _
  | (_, e) :: rest, layers =>
    (act_fails hR hask e layers).bind fun _ => (actEntries_fails hR hask rest layers).bind fun _ => .ok _

theorem actDomains_fails (hR : CallsAllowed R) (hask : ∀ e layers, (ask e layers).FailsAs R) : ∀ (bindings : List (String × Expr)) (layers : HeldLayers),
    (actDomains ask registry bindings layers).FailsAs R
  | [], _ => .ok _
  | (_, e) :: rest, layers =>
    (act_fails hR hask e layers).bind fun _ => (domainHeld_fails hR _ _).bind fun _ =>
      (actDomains_fails hR hask rest layers).bind fun _ => .ok _

end

/-- However many tests ask each other. -/
theorem actWithin_fails (hR : CallsAllowed R) : ∀ n (e : Expr) (layers : HeldLayers), (e.actWithin registry n layers).FailsAs R := by
  intro n
  induction n with
  | zero => exact fun _ _ => .fail (hR.limits _ (by decide))
  | succ n ih => exact fun e layers => act_fails registry hR ih e layers

end Expr

namespace UnaryTests

theorem combineHeld_fails (soFar next : Option Held) : (combineHeld soFar next).FailsAs R := by
  unfold combineHeld
  split
  · exact (Act.FailsAs.reads _).bind fun _ => .ok _
  · exact .ok _

theorem heldOutcomeOf_fails (hR : CallsAllowed R) (hask : ∀ e layers, (ask e layers).FailsAs R)
    (result h : Held) : (heldOutcomeOf ask result h).FailsAs R := by
  have hbeyond : R .beyond := hR.limits _ (by decide)
  refine (Act.FailsAs.reads _).bind fun v => ?_
  split
  · exact .ok _
  · exact .ok _
  split
  · rename_i answered hmatch
    exact matchHeld_fails hR hask hmatch
  · exact (value_fails hbeyond _).bind fun _ => (value_fails hbeyond _).bind fun _ => .ok _

theorem heldOutcome_fails (hR : CallsAllowed R) (hask : ∀ e layers, (ask e layers).FailsAs R)
    (result h : Held) : (heldOutcome ask result h).FailsAs R := by
  have hbeyond : R .beyond := hR.limits _ (by decide)
  have helement : ∀ element, (heldOutcomeOfElement ask element h).FailsAs R := by
    intro element
    unfold heldOutcomeOfElement
    split
    · exact (value_fails hbeyond _).bind fun _ => (Act.FailsAs.reads _).bind fun _ =>
        (values_fails hbeyond _).bind fun _ => .ok _
    · exact heldOutcomeOf_fails hR hask _ _
  unfold heldOutcome
  split
  · exact through_fails hbeyond _
      (fun _ element => (helement element).bind fun _ => (combineHeld_fails _ _).bind fun _ => .ok _) _
  · exact (heldOutcomeOf_fails hR hask _ _).bind fun _ => .ok _

/-- **Tests fail in memory only in ways that are allowed.** -/
theorem act_fails (hR : CallsAllowed R) (hask : ∀ e layers, (ask e layers).FailsAs R) (registry : HeldFields)
    (layers : HeldLayers) (ts : UnaryTests) (h : Held) : (ts.act ask registry layers h).FailsAs R := by
  have houtcomes : ∀ tests soFar, (heldOutcomes ask registry layers h soFar tests).FailsAs R := by
    intro tests
    induction tests with
    | nil => exact fun _ => .ok _
    | cons test rest ih =>
      intro soFar
      refine (Expr.act_fails registry hR hask test layers).bind fun _ => ?_
      exact (heldOutcome_fails hR hask _ _).bind fun _ => (combineHeld_fails _ _).bind fun _ => ih _
  refine (houtcomes _ _).bind fun outcome => ?_
  split
  · exact .ok _
  · refine (Act.FailsAs.reads _).bind fun v => ?_
    split <;> exact .ok _

end UnaryTests

end Evaluation

end Criterion

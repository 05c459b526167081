import Criterion.Memory.Sitting
import Criterion.Proofs.Places

/-!
# What evaluation leaves behind

Evaluation leaves the calls of the functions that record them. An expression of an eager form evaluates its operands
one after the other, each once and whatever their values are, and leaves their calls and no others. A call evaluates
its target, then its arguments, and then it is made. What fails ends all, and the calls up to there remain.

* `Run.GoesThrough`: a run that makes others one after the other, up to the first that fails.
* `Expr.IsEager`, `eager_effects`: forms that evaluate their operands and do nothing else.
* `call_effects`: the steps of a call.
* `Expr.steps`, `effects_steps`: the steps of a whole expression, at any depth.
* `evaluation_in_turn`: **operands are evaluated once each, from left to right, and all of them**, as far as values tell
  their answers.
-/

namespace Criterion

/-! ## Runs one after the other -/

namespace Run

variable {ε α β : Type}

/-- A run without its value. -/
def effects (r : Run ε α) : Run ε Unit := r >>= fun _ => pure ()

/-- Runs one after the other, up to the first that fails. -/
def inTurn : List (Run ε Unit) → Run ε Unit
  | [] => pure ()
  | r :: rest => do
    r
    inTurn rest

def Succeeds (r : Run ε α) : Prop := ∃ a, r.outcome = .ok a

/-- A run that makes others one after the other, each once: their events are its events, up to the first run that
fails, with which it fails. -/
structure GoesThrough (r : Run ε α) (rs : List (Run ε β)) : Prop where
  all : (∀ s ∈ rs, s.Succeeds) → r.Succeeds ∧ r.events = rs.flatMap (·.events)
  first : ∀ before s after f, rs = before ++ s :: after → (∀ t ∈ before, t.Succeeds) → s.outcome = .error f →
    r.outcome = .error f ∧ r.events = before.flatMap (·.events) ++ s.events

@[simp] theorem effects_events (r : Run ε α) : r.effects.events = r.events := by
  cases h : r.outcome with
  | ok a => rw [effects, bind_of_ok h, pure_events, List.append_nil]
  | error f => rw [effects, bind_of_error h]

theorem effects_of_ok {r : Run ε α} {a : α} (h : r.outcome = .ok a) : r.effects.outcome = .ok () := by
  rw [effects, bind_of_ok h, pure_outcome]

theorem effects_error_iff {r : Run ε α} {f : Failure} : r.effects.outcome = .error f ↔ r.outcome = .error f := by
  rw [effects, bind_outcome]
  cases r.outcome with
  | ok a => exact iff_of_false (fun h => by cases h) (fun h => by cases h)
  | error g => constructor <;> (intro h; cases h; rfl)

theorem effects_succeeds_iff {r : Run ε α} : r.effects.Succeeds ↔ r.Succeeds := by
  constructor
  · rintro ⟨u, hu⟩
    cases hr : r.outcome with
    | ok a => exact ⟨a, hr⟩
    | error f =>
      rw [effects_error_iff.2 hr] at hu
      cases hu
  · rintro ⟨a, ha⟩
    exact ⟨(), effects_of_ok ha⟩

theorem effects_bind (r : Run ε α) (f : α → Run ε β) : (r >>= f).effects = r >>= fun a => (f a).effects :=
  bind_assoc r f _

theorem effects_self (r : Run ε Unit) : r.effects = r := bind_pure r

theorem effects_seq (r : Run ε α) (s : Run ε β) : (r.effects >>= fun _ => s) = r >>= fun _ => s := by
  rw [effects, bind_assoc]
  simp only [pure_bind]

/-- What follows a run without regard to its value follows it without its value. -/
theorem effects_then (r : Run ε α) {f : α → Run ε β} {s : Run ε Unit} (h : ∀ a, (f a).effects = s) :
    (r >>= f).effects = r.effects >>= fun _ => s := by
  rw [effects_bind, effects_seq]
  simp only [h]

theorem inTurn_append (rs ss : List (Run ε Unit)) : inTurn (rs ++ ss) = inTurn rs >>= fun _ => inTurn ss := by
  induction rs with
  | nil => rfl
  | cons r rs ih => simp only [List.cons_append, inTurn, ih, bind_assoc]

theorem inTurn_singleton (r : Run ε Unit) : inTurn [r] = r := bind_pure r

theorem inTurn_pair (r s : Run ε Unit) : inTurn [r, s] = r >>= fun _ => s := by
  rw [inTurn, inTurn_singleton]

/-- Runs in turn go through all of them, up to the first that fails. -/
theorem inTurn_goesThrough (rs : List (Run ε β)) : (inTurn (rs.map effects)).GoesThrough rs := by
  induction rs with
  | nil =>
    refine ⟨fun _ => ⟨⟨(), rfl⟩, rfl⟩, fun before s after f h => ?_⟩
    exact absurd h.symm (by simp)
  | cons r rs ih =>
    have hnext : ∀ a, r.outcome = .ok a → inTurn ((r :: rs).map effects) =
        ⟨r.events ++ (inTurn (rs.map effects)).events, (inTurn (rs.map effects)).outcome⟩ := by
      intro a ha
      rw [List.map_cons, inTurn, bind_of_ok (effects_of_ok ha), effects_events]
    constructor
    · intro h
      obtain ⟨⟨a, ha⟩, hrs⟩ := List.forall_mem_cons.1 h
      obtain ⟨hsucceeds, hevents⟩ := ih.all hrs
      rw [hnext a ha]
      exact ⟨hsucceeds, by rw [List.flatMap_cons, ← hevents]⟩
    · intro before s after f h hbefore hs
      cases before with
      | nil =>
        obtain ⟨rfl, -⟩ := List.cons.inj h
        rw [List.map_cons, inTurn, bind_of_error (effects_error_iff.2 hs), effects_events]
        exact ⟨rfl, rfl⟩
      | cons t before =>
        obtain ⟨rfl, hrs⟩ := List.cons.inj h
        obtain ⟨⟨a, ha⟩, hbefore⟩ := List.forall_mem_cons.1 hbefore
        obtain ⟨houtcome, hevents⟩ := ih.first before s after f hrs hbefore hs
        rw [hnext a ha]
        exact ⟨houtcome, by rw [List.flatMap_cons, List.append_assoc, ← hevents]⟩

/-- What a run without its value goes through, it goes through itself. -/
theorem goesThrough_of_effects {r : Run ε α} {rs : List (Run ε β)} (h : r.effects = inTurn (rs.map effects)) :
    r.GoesThrough rs := by
  have hturn : r.effects.GoesThrough rs := h ▸ inTurn_goesThrough rs
  constructor
  · intro hrs
    obtain ⟨hsucceeds, hevents⟩ := hturn.all hrs
    rw [effects_events] at hevents
    exact ⟨effects_succeeds_iff.1 hsucceeds, hevents⟩
  · intro before s after f hrs hbefore hs
    obtain ⟨houtcome, hevents⟩ := hturn.first before s after f hrs hbefore hs
    rw [effects_events] at hevents
    exact ⟨effects_error_iff.1 houtcome, hevents⟩

end Run

/-! ## Eager forms -/

/-- Forms that evaluate their operands and do nothing else. -/
def Expr.IsEager : Expr → Prop
  | .list _ | .context _ | .unary .. | .arithmetic .. | .relation .. | .between .. | .disjunction ..
  | .conjunction .. | .interval .. => True
  | _ => False

section Forms

variable {registry : Fields} {scope : Scope}

open Run

theorem evalItems_effects (registry : Fields) (scope : Scope) (items : List Expr) :
    (Expr.evalItems registry items scope).effects =
      inTurn ((items.map (·.eval registry scope)).map effects) := by
  induction items with
  | nil => rfl
  | cons e items ih =>
    rw [Expr.evalItems]
    refine effects_then _ fun v => ?_
    rw [effects_bind]
    simp only [effects, pure_bind] at ih ⊢
    exact ih

theorem evalEntries_effects (registry : Fields) (scope : Scope) (entries : List (String × Expr)) :
    (Expr.evalEntries registry entries scope).effects =
      inTurn (((entries.map (·.2)).map (·.eval registry scope)).map effects) := by
  induction entries with
  | nil => rfl
  | cons p entries ih =>
    rw [Expr.evalEntries]
    refine effects_then _ fun v => ?_
    rw [effects_bind]
    simp only [effects, pure_bind] at ih ⊢
    exact ih

/-- An expression of an eager form leaves what its operands leave. -/
theorem eager_effects {e : Expr} (h : e.IsEager) :
    (e.eval registry scope).effects = inTurn ((e.operands.map (·.eval registry scope)).map effects) := by
  cases e with
  | list items =>
    rw [Expr.eval, effects_bind]
    exact evalItems_effects registry scope items
  | context entries =>
    rw [Expr.eval, effects_bind]
    exact evalEntries_effects registry scope entries
  | unary =>
    rw [Expr.eval]
    exact effects_then _ fun _ => rfl
  | arithmetic | relation | disjunction | conjunction | interval =>
    rw [Expr.eval]
    exact effects_then _ fun _ => effects_then _ fun _ => rfl
  | between =>
    rw [Expr.eval]
    exact effects_then _ fun _ => effects_then _ fun _ => effects_then _ fun _ => rfl
  | _ => exact h.elim

end Forms

/-! ## Calls -/

section Calls

variable {registry : Fields} {scope : Scope} {source : String} {callee : Expr} {arguments : List Expr}
  {f : Failure} {g : Value}

open Run

/-- Arguments that have values. -/
theorem evalItems_of_values {vs : List Value}
    (h : List.Forall₂ (fun e v => (e.eval registry scope).outcome = .ok v) arguments vs) :
    Expr.evalItems registry arguments scope =
      ⟨arguments.flatMap fun e => (e.eval registry scope).events, .ok vs⟩ := by
  induction h with
  | nil => rfl
  | cons he _ ih =>
    rw [Expr.evalItems, bind_of_ok he, ih, bind_of_ok rfl, pure_events, List.append_nil, List.flatMap_cons]
    rfl

/-- The first argument without a value. -/
theorem evalItems_of_error {before after : List Expr} {e : Expr}
    (hbefore : ∀ x ∈ before, (x.eval registry scope).Succeeds) (he : (e.eval registry scope).outcome = .error f) :
    Expr.evalItems registry (before ++ e :: after) scope =
      ⟨before.flatMap (fun x => (x.eval registry scope).events) ++ (e.eval registry scope).events, .error f⟩ := by
  have hitems := goesThrough_of_effects (evalItems_effects registry scope (before ++ e :: after))
  have hsucceed : ∀ s ∈ before.map (·.eval registry scope), s.Succeeds := by
    intro s hs
    obtain ⟨x, hx, rfl⟩ := List.mem_map.1 hs
    exact hbefore x hx
  obtain ⟨houtcome, hevents⟩ := hitems.first _ _ _ f List.map_append hsucceed he
  rw [List.flatMap_map] at hevents
  cases hrun : Expr.evalItems registry (before ++ e :: after) scope with
  | mk events outcome =>
    rw [hrun] at houtcome hevents
    rw [← hevents, ← houtcome]

/-- A call without a target fails as its target does. -/
theorem call_of_error (h : (callee.eval registry scope).outcome = .error f) :
    (Expr.call source callee arguments).eval registry scope = ⟨(callee.eval registry scope).events, .error f⟩ := by
  rw [Expr.eval, bind_of_error h]

/-- A call of what is no function fails before an argument is evaluated. -/
theorem call_of_not_callable (h : (callee.eval registry scope).outcome = .ok g) (hg : g.isCallable = false) :
    (Expr.call source callee arguments).eval registry scope =
      ⟨(callee.eval registry scope).events, .error (.notAFunction source)⟩ := by
  rw [Expr.eval, bind_of_ok h, hg, if_pos (by rfl), fail_events, fail_outcome, List.append_nil]

/-- A call of a function evaluates its arguments. -/
theorem call_of_callable (h : (callee.eval registry scope).outcome = .ok g) (hg : g.isCallable = true) :
    (Expr.call source callee arguments).eval registry scope = (do
      let _ ← callee.eval registry scope
      let vs ← Expr.evalItems registry arguments scope
      g.call vs) := by
  rw [Expr.eval, bind_of_ok h, bind_of_ok h, hg, if_neg (by decide)]

/-- It is made with their values. -/
theorem call_made {vs : List Value} (h : (callee.eval registry scope).outcome = .ok g) (hg : g.isCallable = true)
    (hvs : List.Forall₂ (fun e v => (e.eval registry scope).outcome = .ok v) arguments vs) :
    (Expr.call source callee arguments).eval registry scope =
      ⟨(callee.eval registry scope).events ++ arguments.flatMap (fun e => (e.eval registry scope).events) ++
        (g.call vs).events, (g.call vs).outcome⟩ := by
  rw [call_of_callable h hg, bind_of_ok h, evalItems_of_values hvs, bind_of_ok rfl, List.append_assoc]

/-- It is not made if one of them fails. -/
theorem call_of_argument_error {before after : List Expr} {e : Expr}
    (h : (callee.eval registry scope).outcome = .ok g) (hg : g.isCallable = true)
    (hbefore : ∀ x ∈ before, (x.eval registry scope).Succeeds) (he : (e.eval registry scope).outcome = .error f) :
    (Expr.call source callee (before ++ e :: after)).eval registry scope =
      ⟨(callee.eval registry scope).events ++ before.flatMap (fun x => (x.eval registry scope).events) ++
        (e.eval registry scope).events, .error f⟩ := by
  rw [call_of_callable h hg, bind_of_ok h, evalItems_of_error hbefore he, bind_of_error rfl, List.append_assoc]

end Calls

/-! ## Steps at any depth -/

/-- A step of the evaluation of an expression: an expression of another form by itself, the question whether the
target of a call is a function, and a call with the values of its target and its arguments. -/
inductive Expr.Step where
  | alone (e : Expr)
  | check (source : String) (callee : Expr)
  | call (callee : Expr) (arguments : List Expr)

/-- What a step leaves, where the steps before it succeed. -/
def Expr.Step.run (registry : Fields) (scope : Scope) : Expr.Step → Eval Unit
  | .alone e => (e.eval registry scope).effects
  | .check source callee =>
    match (callee.eval registry scope).outcome with
    | .ok g => if g.isCallable then pure () else Run.fail (.notAFunction source)
    | .error _ => pure ()
  | .call callee arguments =>
    match (callee.eval registry scope).outcome, (Expr.evalItems registry arguments scope).outcome with
    | .ok g, .ok vs => (g.call vs).effects
    | _, _ => pure ()

namespace Expr

mutual

/-- The steps of an expression of eager forms and calls, in order. -/
def steps : Expr → List Step
  | .list items => stepsOfItems items
  | .context entries => stepsOfEntries entries
  | .unary _ a => a.steps
  | .arithmetic _ a b | .relation _ a b | .disjunction a b | .conjunction a b => a.steps ++ b.steps
  | .between a low high => a.steps ++ (low.steps ++ high.steps)
  | .interval _ _ start stop _ => start.steps ++ stop.steps
  | .call source callee arguments =>
    callee.steps ++ .check source callee :: (stepsOfItems arguments ++ [.call callee arguments])
  | e => [.alone e]

def stepsOfItems : List Expr → List Step
  | [] => []
  | e :: rest => e.steps ++ stepsOfItems rest

def stepsOfEntries : List (String × Expr) → List Step
  | [] => []
  | (_, e) :: rest => e.steps ++ stepsOfEntries rest

end

end Expr

section Steps

variable {registry : Fields} {scope : Scope}

open Run

/-- A call evaluates its target, asks whether that is a function, and evaluates the arguments before it is made. -/
theorem call_effects (registry : Fields) (scope : Scope) (source : String) (callee : Expr) (arguments : List Expr) :
    ((Expr.call source callee arguments).eval registry scope).effects = (do
      (callee.eval registry scope).effects
      (Expr.Step.check source callee).run registry scope
      (Expr.evalItems registry arguments scope).effects
      (Expr.Step.call callee arguments).run registry scope) := by
  rw [Expr.eval, effects_bind, effects_seq]
  refine bind_congr fun g hg => ?_
  rw [effects_seq]
  cases hcallable : g.isCallable with
  | false =>
    simp only [Expr.Step.run, hg, hcallable]
    rfl
  | true =>
    have hcheck : (Expr.Step.check source callee).run registry scope = pure () := by
      simp only [Expr.Step.run, hg, hcallable]
      rfl
    rw [hcheck, pure_bind]
    refine (effects_bind _ _).trans (bind_congr fun vs hvs => ?_)
    simp only [Expr.Step.run, hg, hvs]

mutual

/-- An expression leaves what its steps leave, one after the other. -/
theorem effects_steps (registry : Fields) (scope : Scope) : ∀ e : Expr,
    (e.eval registry scope).effects = inTurn (e.steps.map (·.run registry scope))
  | .list items => (effects_bind _ _).trans (effects_stepsOfItems registry scope items)
  | .context entries => (effects_bind _ _).trans (effects_stepsOfEntries registry scope entries)
  | .unary op a => by
    rw [Expr.steps, ← effects_steps registry scope a]
    exact (eager_effects (by trivial)).trans (inTurn_singleton _)
  | .arithmetic _ a b | .relation _ a b | .disjunction a b | .conjunction a b | .interval _ _ a b _ => by
    rw [Expr.steps, List.map_append, inTurn_append, ← effects_steps registry scope a,
      ← effects_steps registry scope b, ← inTurn_pair]
    exact eager_effects (by trivial)
  | .between a low high => by
    rw [Expr.steps, List.map_append, inTurn_append, List.map_append, inTurn_append,
      ← effects_steps registry scope a, ← effects_steps registry scope low, ← effects_steps registry scope high,
      ← inTurn_pair (low.eval registry scope).effects]
    exact eager_effects (e := .between a low high) trivial
  | .call source callee arguments => by
    rw [Expr.steps, List.map_append, inTurn_append, List.map_cons, inTurn, List.map_append, inTurn_append,
      List.map_singleton, inTurn_singleton, ← effects_steps registry scope callee,
      ← effects_stepsOfItems registry scope arguments]
    exact call_effects registry scope source callee arguments
  | .null | .boolean _ | .number _ | .text _ | .wildcard | .name _ | .registered _ | .input | .member ..
  | .instanceOf .. | .choose .. | .loop .. | .quantified .. | .range .. | .path .. | .filter .. | .test ..
  | .procedure => (inTurn_singleton _).symm

theorem effects_stepsOfItems (registry : Fields) (scope : Scope) : ∀ items : List Expr,
    (Expr.evalItems registry items scope).effects =
      inTurn ((Expr.stepsOfItems items).map (·.run registry scope))
  | [] => rfl
  | e :: rest => by
    rw [Expr.stepsOfItems, List.map_append, inTurn_append, ← effects_steps registry scope e,
      ← effects_stepsOfItems registry scope rest, evalItems_effects, evalItems_effects]
    rfl

theorem effects_stepsOfEntries (registry : Fields) (scope : Scope) : ∀ entries : List (String × Expr),
    (Expr.evalEntries registry entries scope).effects =
      inTurn ((Expr.stepsOfEntries entries).map (·.run registry scope))
  | [] => rfl
  | (_, e) :: rest => by
    rw [Expr.stepsOfEntries, List.map_append, inTurn_append, ← effects_steps registry scope e,
      ← effects_stepsOfEntries registry scope rest, evalEntries_effects, evalEntries_effects]
    rfl

end

end Steps

/-! ## Evaluation -/

/-- What a call does: its target fails, or is refused, or the arguments are evaluated and one of them fails, or the
call is made. -/
structure CallsInTurn (registry : Fields) (scope : Scope) (source : String) (callee : Expr)
    (arguments : List Expr) : Prop where
  failed : ∀ f, (callee.eval registry scope).outcome = .error f →
    (Expr.call source callee arguments).eval registry scope = ⟨(callee.eval registry scope).events, .error f⟩
  /-- No argument is evaluated for what is no function. -/
  refused : ∀ g, (callee.eval registry scope).outcome = .ok g → g.isCallable = false →
    ∃ f message, (Expr.call source callee arguments).eval registry scope =
      ⟨(callee.eval registry scope).events, .error f⟩ ∧ f.report? = some ⟨"InvocationFailure", message⟩
  stopped : ∀ g, (callee.eval registry scope).outcome = .ok g → g.isCallable = true →
    ∀ before e after f, arguments = before ++ e :: after →
      (∀ x ∈ before, (x.eval registry scope).Succeeds) → (e.eval registry scope).outcome = .error f →
      (Expr.call source callee arguments).eval registry scope =
        ⟨(callee.eval registry scope).events ++ before.flatMap (fun x => (x.eval registry scope).events) ++
          (e.eval registry scope).events, .error f⟩
  made : ∀ g, (callee.eval registry scope).outcome = .ok g → g.isCallable = true →
    ∀ vs, List.Forall₂ (fun e v => (e.eval registry scope).outcome = .ok v) arguments vs →
      (Expr.call source callee arguments).eval registry scope =
        ⟨(callee.eval registry scope).events ++ arguments.flatMap (fun e => (e.eval registry scope).events) ++
          (g.call vs).events, (g.call vs).outcome⟩

theorem callsInTurn (registry : Fields) (scope : Scope) (source : String) (callee : Expr) (arguments : List Expr) :
    CallsInTurn registry scope source callee arguments where
  failed f := call_of_error
  refused g h hg := ⟨_, _, call_of_not_callable h hg, rfl⟩
  stopped g h hg := by
    rintro before e after f rfl hbefore he
    exact call_of_argument_error h hg hbefore he
  made g h hg vs hvs := call_made h hg hvs

/-- **Operands are evaluated once each, from left to right, and all of them.** An expression of an eager form leaves
the calls of its operands, one after the other, whatever their values are, and up to the first operand that fails. A
call leaves those of its target and of its arguments, and then its own; what records its calls leaves its arguments.
A call of what is no function fails before an argument is evaluated. So an expression that is built of these forms
leaves what its steps leave, at any depth. And from left to right is from first to last in the source. -/
theorem evaluation_in_turn (registry : Fields) (scope : Scope) :
    (∀ e : Expr, e.IsEager → (e.eval registry scope).GoesThrough (e.operands.map (·.eval registry scope))) ∧
    (∀ source callee arguments, CallsInTurn registry scope source callee arguments) ∧
    (∀ vs, (Value.function .recorder).call vs = ⟨[vs], .ok (.ofOption vs.head?)⟩) ∧
    (∀ e : Expr, (e.eval registry scope).GoesThrough (e.steps.map (·.run registry scope))) ∧
    ∀ unary source t u e, parse unary source = .ok t → t.IsPart u →
      (u.build source).outcome = .ok (some (.expr e)) →
      ∃ ts : List Tree, ∃ spans : List Span, List.Forall₂ (Tree.Makes source) ts e.operands ∧
        (∀ part ∈ ts, u.IsPart part) ∧ ts.map Tree.span = spans.map some ∧
        spans.Pairwise fun c d => c.stop ≤ d.start := by
  refine ⟨fun e he => ?_, callsInTurn registry scope, fun vs => rfl, fun e => ?_, ?_⟩
  · exact Run.goesThrough_of_effects (eager_effects he)
  · have hself : (e.steps.map (·.run registry scope)).map Run.effects = e.steps.map (·.run registry scope) :=
      List.map_id'' Run.effects_self _
    refine Run.goesThrough_of_effects ?_
    rw [hself]
    exact effects_steps registry scope e
  · exact fun unary source t u e h hu he => operands_in_place h hu he

/-- `f(1) < f(null)` calls `f` twice, and `1(f(null))` does not call it. In `1-2` the operands stand in order. -/
theorem evaluation_in_turn_recorded :
    let f (v : Expr) : Expr := .call "f" (.name "f") [v]
    let scope := Scope.ofFields [("f", .function .recorder)]
    let one : Expr := .number (.whole 1)
    let two : Expr := .number (.whole 2)
    ((Expr.relation .less (f one) (f .null)).eval [] scope).events = [[.whole 1], [.null]] ∧
      ((Expr.call "1" one [f .null]).eval [] scope).events = [] ∧
      ∃ ts, List.Forall₂ (Tree.Makes "1-2") ts [one, two] := by
  intro f scope one two
  obtain ⟨heager, hcalls, -, -, hplaces⟩ := evaluation_in_turn [] scope
  refine ⟨?_, ?_, ?_⟩
  · have hrun := heager (.relation .less (f one) (f .null)) trivial
    refine (hrun.all ?_).2
    exact List.forall_mem_cons.2 ⟨⟨_, rfl⟩, List.forall_mem_singleton.2 ⟨_, rfl⟩⟩
  · obtain ⟨_, _, hrun, -⟩ := (hcalls "1" one [f .null]).refused (.whole 1) rfl (by decide)
    rw [hrun]
    rfl
  · let u : Tree := .node .arithmeticExpression (some ⟨0, 3⟩)
      [.token ⟨.number, "1", some ⟨0, 1⟩⟩, .token ⟨.minus, "-", some ⟨1, 2⟩⟩,
        .token ⟨.number, "2", some ⟨2, 3⟩⟩]
    have hparse : parse false "1-2" = .ok (.node .expressions (some ⟨0, 3⟩) [u]) := by rfl
    have hpart : Tree.IsPart (.node .expressions (some ⟨0, 3⟩) [u]) u := .child .self (.head _)
    have hbuild : (u.build "1-2").outcome = .ok (some (.expr (.arithmetic .minus one two))) := by rfl
    obtain ⟨ts, spans, hmakes, -⟩ := hplaces false "1-2" _ u _ hparse hpart hbuild
    exact ⟨ts, hmakes⟩

/-- The second operand makes a call for each element of a list, which the first one appends to. By itself the second
operand makes no call, and neither does the first. -/
theorem appending_operand_adds_call :
    let calls (source : String) :=
      (respond .standard source [("xs", .list []), ("f", .function .recorder)]).events.length
    calls "[[xs].append[1](1), for y in xs return f(y)]" = 1 ∧ calls "[xs].append[1](1)" = 0 ∧
      calls "for y in xs return f(y)" = 0 := by
  decide +kernel

end Criterion

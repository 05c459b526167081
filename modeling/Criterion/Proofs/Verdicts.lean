import Criterion.Proofs.Runs
import Criterion.Session

/-!
# What a test says about the tested value

The value of a test says something about the value under `?`, and the answer of a list of tests is put
together from what each of them says.

* `Value.verdictOn`: what a value says about another one.
* `UnaryTests.eval_list`: **the tests of a list are all evaluated, and then what each value says is
  combined from left to right.**
* `evaluate_of_build`, `unaryTest_of_build`: the two entries, once the tree of a source is built.
-/

namespace Criterion

/-- **What a value says about the tested value `v`.** Null says nothing, a boolean speaks for itself, a
probe answers, and a list says whether `v` is one of its elements. Any other value says whether it
equals `v`, if it is of the same kind, and nothing otherwise. -/
def Value.verdictOn (v : Value) : Value → Eval Value
  | .null => return .null
  | .boolean b => return .boolean b
  | .probe p => p.match v
  | .list items => return .boolean (items.any (·.eqv v))
  | w => return if w.kind = v.kind then .boolean (w.eqv v) else .null

/-! ## Runs that are mapped -/

namespace Run

variable {ε δ α β : Type}

@[simp] theorem mapEvents_pure (f : ε → List δ) (a : α) :
    (pure a : Run ε α).mapEvents f = pure a := rfl

/-- Events are replaced in each part of a run. -/
theorem mapEvents_bind (f : ε → List δ) (r : Run ε α) (g : α → Run ε β) :
    (r >>= g).mapEvents f = r.mapEvents f >>= fun a => (g a).mapEvents f := by
  cases hr : r.outcome with
  | error e =>
    have hmapped : (r.mapEvents f).outcome = .error e := hr
    rw [bind_of_error hr, bind_of_error hmapped]
    rfl
  | ok a =>
    have hmapped : (r.mapEvents f).outcome = .ok a := hr
    rw [bind_of_ok hr, bind_of_ok hmapped]
    simp only [mapEvents, List.flatMap_append]

end Run

theorem action_bind {α β : Type} (r : Eval α) (f : α → Eval β) :
    Eval.action (r >>= f) = r.action >>= fun a => (f a).action := Run.mapEvents_bind _ r f

@[simp] theorem action_pure {α : Type} (a : α) : Eval.action (pure a) = pure a := rfl

/-! ## Lists of tests -/

namespace UnaryTests

theorem outcomeOfElement_eq (w v : Value) : outcomeOfElement w v = v.verdictOn w := by
  have hkind : ∀ w : Value, (if w.sameKind v then Value.boolean (w.eqv v) else .null) =
      if w.kind = v.kind then .boolean (w.eqv v) else .null := by
    intro w
    simp only [Value.sameKind, beq_iff_eq]
  cases w with
  | null | boolean | probe | list => rfl
  | _ => exact congrArg pure (hkind _)

/-- The outcomes so far and the next ones. -/
def combineAll (soFar : Option Value) (outcomes : List Value) : Option Value :=
  outcomes.foldl (fun soFar o => combine soFar (some o)) soFar

theorem outcomeOfElements_eq (v : Value) (ws : List Value) : ∀ soFar,
    outcomeOfElements v soFar ws = do
      let outcomes ← ws.mapM v.verdictOn
      return combineAll soFar outcomes := by
  induction ws with
  | nil => exact fun _ => rfl
  | cons w ws ih =>
    intro soFar
    rw [outcomeOfElements, outcomeOfElement_eq, List.mapM_cons]
    simp only [ih, bind_assoc, pure_bind]
    rfl

/-- The answer that combined outcomes give. -/
def settle (negated : Bool) : Option Value → Value
  | none => .null
  | some .null => .null
  | some w => if negated then .boolean !w.isNonzero else w

/-- **The tests of a list are all evaluated, and then what each value says is combined.** -/
theorem eval_list (registry : Fields) (negated : Bool) (es : List Expr) (scope : Scope) (v : Value) :
    (⟨negated, [.list es]⟩ : UnaryTests).eval registry scope v = do
      let values ← Expr.evalItems registry es scope
      let outcomes ← values.mapM v.verdictOn
      return settle negated (combineAll none outcomes) := by
  unfold eval
  simp only [outcomes, Expr.eval, outcome, outcomeOfElements_eq, bind_assoc, pure_bind, combine]
  -- the list is one test itself, whose outcome is combined with no other
  refine Run.bind_congr fun values _ => Run.bind_congr fun outcomes _ => ?_
  cases combineAll none outcomes with
  | none => rfl
  | some w => cases w <;> rfl

end UnaryTests

/-! ## Entries -/

section Entries

variable {source : String} {t : Tree} {registry bindings : Fields}

theorem note_untraced (registry : Fields) (text : String) :
    Settings.note ⟨registry, 0⟩ text = pure () := rfl

theorem noteAnswer_untraced (registry : Fields) (text : String) (v : Value) :
    Settings.noteAnswer ⟨registry, 0⟩ text v = pure () := rfl

/-- Without a trace, building leaves nothing but its outcome. -/
theorem build_untraced (registry : Fields) (source : String) (t : Tree) :
    Settings.build ⟨registry, 0⟩ source t = Run.ofExcept (t.build source).outcome := by
  have hnone : (fun l : TraceLine => if l.level ≤ 0 then [Event.line l.shown] else []) =
      fun _ => [] := by
    funext l
    cases l <;> rfl
  unfold Settings.build
  simp only [hnone]
  unfold Run.mapEvents Run.ofExcept
  simp

theorem ofExcept_ok_bind {ε α β : Type} (a : α) (f : α → Run ε β) :
    Run.ofExcept (.ok a) >>= f = f a := by
  rw [Run.bind_of_ok rfl, Run.ofExcept_events, List.nil_append]

/-- A source whose tree is built has the value of what it is built into. -/
theorem evaluate_of_build (h : parse false source = .ok t) {a : Artifact}
    (ha : (t.build source).outcome = .ok (some a)) :
    evaluate ⟨registry, 0⟩ source bindings =
      (do return (← a.eval registry (.ofFields bindings)).single : Eval Value).action := by
  unfold evaluate
  simp only [note_untraced, noteAnswer_untraced, build_untraced, h, ha, ofExcept_ok_bind, pure_bind,
    action_bind, action_pure]

/-- The list of one expression has its value. -/
theorem eval_singleton (e : Expr) (scope : Scope) :
    (do return (← (Artifact.expr (.list [e])).eval registry scope).single : Eval Value) = e.eval registry scope := by
  show (Expr.eval registry (.list [e]) scope >>= fun v => pure v.single) = _
  simp only [Expr.eval, Expr.evalItems, bind_assoc, pure_bind, Value.single, bind_pure]

/-- A source that is read as one expression is evaluated as that expression. -/
theorem evaluate_of_lone {e : Expr}
    (h : ∃ t, parse false source = .ok t ∧ (t.build source).outcome = .ok (some (.expr (.list [e])))) :
    evaluate ⟨registry, 0⟩ source bindings = (e.eval registry (.ofFields bindings)).action := by
  obtain ⟨t, ht, hbuild⟩ := h
  rw [evaluate_of_build ht hbuild, eval_singleton]

/-- A source whose tree is built into tests has their answer for the value under `?`. -/
theorem unaryTest_of_build (h : parse true source = .ok t) {ts : UnaryTests}
    (hts : (t.build source).outcome = .ok (some (.tests ts))) :
    unaryTest ⟨registry, 0⟩ source bindings false =
      (ts.eval registry (.ofFields bindings)
        ((Scope.ofFields bindings).get Scope.inputKey)).action := by
  unfold unaryTest
  simp only [note_untraced, noteAnswer_untraced, build_untraced, h, hts, ofExcept_ok_bind, pure_bind,
    Bool.false_eq_true, if_false, bind_pure]

/-- A source whose tree cannot be built fails in both entries. -/
theorem evaluate_of_error (h : parse false source = .ok t) {e : Failure}
    (ht : (t.build source).outcome = .error e) :
    evaluate ⟨registry, 0⟩ source bindings = Run.fail e := by
  unfold evaluate
  simp only [note_untraced, build_untraced, h, ht, ofExcept_ok_bind, pure_bind]
  exact Run.bind_of_error rfl _

theorem unaryTest_of_error (h : parse true source = .ok t) {e : Failure}
    (ht : (t.build source).outcome = .error e) :
    unaryTest ⟨registry, 0⟩ source bindings false = Run.fail e := by
  unfold unaryTest
  simp only [note_untraced, build_untraced, h, ht, ofExcept_ok_bind, pure_bind]
  exact Run.bind_of_error rfl _

end Entries

end Criterion

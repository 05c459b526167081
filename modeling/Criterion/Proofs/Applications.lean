import Criterion.Proofs.Searches

/-!
# Builtins applied to each other

In a context a builtin is applied to the values of other expressions, which may be calls of builtins themselves.
Each call answers what its function answers for the values of its arguments, and arithmetic goes on from there.

* `Expr.Gives`: the value of an expression in a context.
* `Expr.Gives.apply`: the value of a call.
* `Expr.Gives.evaluate`: **a source that is read as such an expression answers its value.**
-/

namespace Criterion

namespace Expr

/-- An expression has a value in a context, with the standard builtins. -/
def Gives (bindings : Fields) (e : Expr) (v : Value) : Prop :=
  (e.eval standardRegistry (.ofFields bindings)).outcome = .ok v

variable {bindings : Fields} {name source : String} {v w : Value} {vs : List Value} {b : Builtin}
  {e f callee : Expr} {arguments : List Expr}

theorem gives_name (hname : Unregistered standardRegistry name) (h : bindings.get? name = some v) :
    (Expr.name name).Gives bindings v :=
  congrArg Run.outcome (eval_bound hname ((get_ofFields bindings name).trans h))

theorem gives_builtin (bindings : Fields) (b : Builtin) :
    (Expr.name b.name).Gives bindings (.function (.builtin b)) :=
  congrArg Run.outcome (eval_builtin b _)

/-- `date and time` is a name of the registry alone. -/
theorem gives_dateAndTime (bindings : Fields) :
    (Expr.registered "date and time").Gives bindings (.function (.builtin .dateAndTime)) := rfl

theorem gives_number (bindings : Fields) (n : Number) : (Expr.number n).Gives bindings (.number n) := rfl

theorem Gives.unary (op : Arithmetic) (he : e.Gives bindings v) :
    (Expr.unary op e).Gives bindings (Value.arithmetic op (.whole 0) v) := by
  rw [Gives] at he ⊢
  rw [Expr.eval, Run.bind_outcome, he]
  rfl

theorem Gives.arithmetic (op : Arithmetic) (he : e.Gives bindings v) (hf : f.Gives bindings w) :
    (Expr.arithmetic op e f).Gives bindings (Value.arithmetic op v w) := by
  rw [Gives] at he hf ⊢
  rw [Expr.eval, Run.bind_outcome, he]
  change (f.eval _ _ >>= fun w => (pure (Value.arithmetic op v w) : Eval Value)).outcome = _
  rw [Run.bind_outcome, hf]
  rfl

theorem gives_items (h : List.Forall₂ (Gives bindings) arguments vs) :
    (evalItems standardRegistry arguments (.ofFields bindings)).outcome = .ok vs := by
  induction h with
  | nil => rfl
  | cons he _ ih =>
    rw [Gives] at he
    rw [evalItems, Run.bind_outcome, he]
    change (evalItems _ _ _ >>= fun vs => (pure (_ :: vs) : Eval (List Value))).outcome = _
    rw [Run.bind_outcome, ih]
    rfl

/-- **A call answers what its function does for the values of the arguments.** -/
theorem Gives.apply (hcallee : callee.Gives bindings (.function (.builtin b)))
    (harguments : List.Forall₂ (Gives bindings) arguments vs)
    (harity : b.arity.check b.name vs.length = .ok ()) (h : b.apply vs = .ok v) :
    (Expr.call source callee arguments).Gives bindings v := by
  have hitems := gives_items harguments
  have hcall : (Value.call (.function (.builtin b)) vs).outcome = .ok v := by
    rw [Value.call, Run.bind_outcome, Run.ofExcept_outcome, harity]
    exact h
  rw [Gives] at hcallee ⊢
  rw [Expr.eval, Run.bind_outcome, hcallee]
  change (evalItems _ _ _ >>= Value.call (.function (.builtin b))).outcome = _
  rw [Run.bind_outcome, hitems]
  exact hcall

/-- A call of one argument. -/
theorem Gives.apply₁ (he : e.Gives bindings w) (harity : b.arity.check b.name 1 = .ok ())
    (h : b.apply [w] = .ok v) : (Expr.call source (.name b.name) [e]).Gives bindings v :=
  .apply (gives_builtin bindings b) (.cons he .nil) harity h

/-- Two lists put together. -/
theorem gives_concatenate {xs ys : List Value} (source : String) (he : e.Gives bindings (.list xs))
    (hf : f.Gives bindings (.list ys)) :
    (Expr.call source (.name "concatenate") [e, f]).Gives bindings (.list (xs ++ ys)) := by
  have happly : Builtin.apply .concatenate [.list xs, .list ys] = .ok (.list (xs ++ ys)) := by
    have hlists : Library.concatenate? [.list xs, .list ys] = some (xs ++ ys) :=
      congrArg (fun zs => some (xs ++ zs)) (List.append_nil ys)
    rw [Builtin.apply, hlists]
    rfl
  exact .apply (gives_builtin bindings .concatenate) (.cons he (.cons hf .nil)) rfl happly

/-- **A source that is read as one expression answers its value.** -/
theorem Gives.evaluate (h : e.Gives bindings v) (hread : isReadAs false source (.expr (.list [e])) = true) :
    (evaluate .standard source bindings).outcome = .ok v :=
  evaluate_isReadAs hread h

end Expr

end Criterion

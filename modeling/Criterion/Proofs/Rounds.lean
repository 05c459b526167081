import Criterion.Proofs.Carried
import Criterion.Proofs.Failures
import Criterion.Proofs.Limits
import Criterion.Proofs.Shadowing
import Mathlib.Algebra.BigOperators.Group.List.Basic

/-!
# The rounds of a loop

A loop over lists goes through all choices of one element for each name, the last name fastest. The round
with number `j` takes the elements at the mixed-radix digits of `j`, the lengths of the lists being the
radices, and sees the results of the `j` rounds before it.

* `digits`, `chosen`: the places, and the elements, that a round takes.
* `loopScopes_rounds`: these are the scopes that a loop goes through.
* `collect_rounds`: a loop's body is run once a round, until all rounds are done or one fails.
* `evalDomains_lists`, `evalDomains_fails`: the lists are evaluated first, up to one that is none.
* `loop_runs_rounds`: **a loop is a mixed-radix loop with a history.**
-/

namespace Criterion

/-! ## The choices in order -/

section Choices

variable {α β : Type}

theorem map_range_mul (n m : ℕ) (f : ℕ → α) :
    (List.range (n * m)).map f =
      (List.range n).flatMap fun q => (List.range m).map fun r => f (q * m + r) := by
  induction n with
  | zero => rw [Nat.zero_mul, List.range_zero, List.map_nil, List.flatMap_nil]
  | succ n ih =>
    rw [Nat.succ_mul, List.range_add, List.map_append, ih, List.range_succ, List.flatMap_append,
      List.flatMap_singleton, List.map_map]
    rfl

theorem flatMap_eq_range (d : α) (g : α → List β) (xs : List α) :
    xs.flatMap g = (List.range xs.length).flatMap fun i => g (xs.getD i d) := by
  induction xs with
  | nil => rfl
  | cons x xs ih =>
    rw [List.length_cons, List.range_succ_eq_map, List.flatMap_cons, List.flatMap_cons,
      List.flatMap_map, ih]
    rfl

end Choices

/-- How many rounds a loop over some lists has. -/
def rounds (domains : List (String × List Value)) : ℕ := (domains.map (·.2.length)).prod

/-- The digits of a number to given radices, the last one least significant. -/
def digits : List ℕ → ℕ → List ℕ
  | [], _ => []
  | _ :: radices, j => j / radices.prod :: digits radices (j % radices.prod)

/-- The names of a loop with the elements that the round with a number takes for them. -/
def chosen (domains : List (String × List Value)) (j : ℕ) : List (String × Value) :=
  List.zipWith (fun d i => (d.1, d.2.getD i .null)) domains (digits (domains.map (·.2.length)) j)

theorem rounds_cons (d : String × List Value) (domains : List (String × List Value)) :
    rounds (d :: domains) = d.2.length * rounds domains := List.prod_cons

theorem chosen_cons (d : String × List Value) (domains : List (String × List Value)) {q r : ℕ}
    (hr : r < rounds domains) :
    chosen (d :: domains) (q * rounds domains + r) =
      (d.1, d.2.getD q .null) :: chosen domains r := by
  have hdiv : (q * rounds domains + r) / rounds domains = q := by
    rw [Nat.mul_comm, Nat.mul_add_div (by omega), Nat.div_eq_of_lt hr, Nat.add_zero]
  have hmod : (q * rounds domains + r) % rounds domains = r := by
    rw [Nat.mul_comm, Nat.mul_add_mod, Nat.mod_eq_of_lt hr]
  change (d.1, d.2.getD ((q * rounds domains + r) / rounds domains) .null) ::
    chosen domains ((q * rounds domains + r) % rounds domains) = _
  rw [hdiv, hmod]

theorem product_chosen (domains : List (String × List Value)) :
    product (domains.map fun (name, values) => values.map fun v => (name, v)) =
      (List.range (rounds domains)).map (chosen domains) := by
  induction domains with
  | nil => rfl
  | cons d domains ih =>
    have hrest : ∀ q ∈ List.range d.2.length,
        ((List.range (rounds domains)).map (chosen domains)).map ((d.1, d.2.getD q .null) :: ·) =
          (List.range (rounds domains)).map fun r => chosen (d :: domains) (q * rounds domains + r) := by
      intro q _
      rw [List.map_map]
      refine List.map_congr_left fun r hr => ?_
      rw [chosen_cons d domains (List.mem_range.1 hr), Function.comp_apply]
    calc product ((d :: domains).map fun (name, values) => values.map fun v => (name, v))
        = (d.2.map fun v => (d.1, v)).flatMap fun a =>
            ((List.range (rounds domains)).map (chosen domains)).map (a :: ·) := by
          rw [← ih]
          rfl
      _ = (List.range d.2.length).flatMap fun q =>
            ((List.range (rounds domains)).map (chosen domains)).map ((d.1, d.2.getD q .null) :: ·) := by
          rw [List.flatMap_map, flatMap_eq_range .null]
      _ = (List.range d.2.length).flatMap fun q => (List.range (rounds domains)).map fun r =>
            chosen (d :: domains) (q * rounds domains + r) := List.flatMap_congr hrest
      _ = (List.range (rounds (d :: domains))).map (chosen (d :: domains)) := by
          rw [rounds_cons, map_range_mul]

theorem loopScopes_rounds (scope : Scope) (domains : List (String × List Value)) :
    loopScopes scope domains =
      (List.range (rounds domains)).map fun j => scope.extend (.ofPairs (chosen domains j)) := by
  rw [loopScopes, product_chosen, List.map_map]
  rfl

/-! ## Round after round -/

section Collect

variable {round : List Value → Eval Value} {results history : List Value} {count : ℕ}

/-- Each result is what a round answers after the results before it. -/
def IsHistory (round : List Value → Eval Value) (history : List Value) : Prop :=
  ∀ j (hj : j < history.length), (round (history.take j)).outcome = .ok history[j]

/-- The end of so many rounds: the results of all, or the failure of the one after the results. -/
inductive RoundsEnd (round : List Value → Eval Value) (count : ℕ) :
    List Value → Except Failure (List Value) → Prop where
  | all {history : List Value} (h : history.length = count) : RoundsEnd round count history (.ok history)
  | failed {history : List Value} {f : Failure} (h : history.length < count)
    (hf : (round history).outcome = .error f) : RoundsEnd round count history (.error f)

theorem IsHistory.append (h : IsHistory round results) {v : Value}
    (hv : (round results).outcome = .ok v) : IsHistory round (results ++ [v]) := by
  intro j hj
  rw [List.length_append, List.length_singleton] at hj
  rcases Nat.lt_succ_iff_lt_or_eq.1 hj with hlt | rfl
  · rw [List.take_append_of_le_length hlt.le, List.getElem_append_left hlt]
    exact h j hlt
  · rw [List.take_left', List.getElem_append_right le_rfl]
    · simpa using hv
    · rfl

/-- The events of the rounds that are run after some results: those that gave the other results, and the one
that failed. -/
def roundEvents (round : List Value → Eval Value) (history : List Value) (first count : ℕ) :
    List (List Value) :=
  (List.range' first (min (history.length + 1) count - first)).flatMap fun j =>
    (round (history.take j)).events

/-- The body of a loop is run in one round after the other, until one fails. -/
theorem collect_rounds {body : Scope → Eval Value} (scopeAt : ℕ → Scope)
    (hround : ∀ h, round h = body ((scopeAt h.length).extend [(partialKey, .list h)]))
    (hresults : IsHistory round results) (n : ℕ) (hcount : results.length + n = count) :
    ∃ history, results <+: history ∧ IsHistory round history ∧
      RoundsEnd round count history
        (collect body results ((List.range' results.length n).map scopeAt)).outcome ∧
      (collect body results ((List.range' results.length n).map scopeAt)).events =
        roundEvents round history results.length count := by
  induction n generalizing results with
  | zero =>
    refine ⟨results, List.prefix_rfl, hresults, .all hcount, ?_⟩
    have hnone : min (results.length + 1) count - results.length = 0 := by omega
    rw [roundEvents, hnone]
    rfl
  | succ n ih =>
    rw [List.range'_succ, List.map_cons, collect, ← hround]
    cases hv : (round results).outcome with
    | error f =>
      rw [Run.bind_of_error hv]
      refine ⟨results, List.prefix_rfl, hresults, .failed (by omega) hv, ?_⟩
      have hone : min (results.length + 1) count - results.length = 1 := by omega
      rw [roundEvents, hone, List.range'_one, List.flatMap_singleton, List.take_length]
    | ok v =>
      rw [Run.bind_of_ok hv]
      have hlength : (results ++ [v]).length = results.length + 1 := by simp
      obtain ⟨history, hprefix, hhistory, hend, hevents⟩ :=
        ih (hresults.append hv) (by omega)
      rw [hlength] at hend hevents
      have hresults : results <+: history := (List.prefix_append _ _).trans hprefix
      refine ⟨history, hresults, hhistory, hend, ?_⟩
      have hlt : results.length < history.length := by
        have := hprefix.length_le
        omega
      have hsucc : min (history.length + 1) count - results.length =
          min (history.length + 1) count - (results.length + 1) + 1 := by omega
      dsimp only
      rw [hevents, roundEvents, roundEvents, hsucc, List.range'_succ, List.flatMap_cons,
        ← List.prefix_iff_eq_take.1 hresults]

end Collect

/-! ## The lists of a loop -/

section Domains

variable {registry : Fields} {scope : Scope} {bindings before after : List (String × Expr)}
  {domains : List (String × List Value)} {name : String} {e : Expr} {v : Value} {f : Failure}

/-- The expressions that a loop's names range over give these lists. -/
def GiveLists (registry : Fields) (scope : Scope) :
    List (String × Expr) → List (String × List Value) → Prop :=
  List.Forall₂ fun b d => d.1 = b.1 ∧ (b.2.eval registry scope).outcome = .ok (.list d.2)

/-- The events of evaluating the expressions that a loop's names range over. -/
def domainEvents (registry : Fields) (scope : Scope) (bindings : List (String × Expr)) :
    List (List Value) :=
  bindings.flatMap fun b => (b.2.eval registry scope).events

theorem evalDomains_lists (h : GiveLists registry scope bindings domains) :
    Expr.evalDomains registry bindings scope = ⟨domainEvents registry scope bindings, .ok domains⟩ := by
  induction h with
  | nil => rfl
  | @cons b d bindings domains hb _ ih =>
    obtain ⟨name, items⟩ := d
    obtain ⟨rfl, houtcome⟩ := hb
    rw [Expr.evalDomains, Run.bind_of_ok houtcome, ih]
    simp [Run.bind_of_ok, domainOf, domainEvents]

/-- The lists before one that is none are evaluated, and nothing else. -/
theorem evalDomains_fails (hbefore : GiveLists registry scope before domains)
    (he : (e.eval registry scope).outcome = .ok v) (h : domainOf name v = .error f) :
    Expr.evalDomains registry (before ++ (name, e) :: after) scope =
      ⟨domainEvents registry scope (before ++ [(name, e)]), .error f⟩ := by
  induction hbefore with
  | nil =>
    rw [List.nil_append, Expr.evalDomains, Run.bind_of_ok he, h]
    simp [Run.bind_of_error, domainEvents]
  | @cons b d bindings domains hb _ ih =>
    rw [List.cons_append, Expr.evalDomains, Run.bind_of_ok hb.2, ih]
    simp [Run.bind_of_ok, Run.bind_of_error, domainOf, domainEvents]

/-- What is no list is announced, if it can be shown. -/
theorem domainOf_of_not_list (name : String) (h : v.isList = false) :
    ∃ f, domainOf name v = .error f ∧
      ((∃ text, v.shown = .ok text ∧ f = .notAList name v.typeName text) ∨
        (v.shown = .error .tooManyDigits ∧ f = .tooManyDigits)) := by
  have hdomain : domainOf name v = v.shown >>= fun text => .error (.notAList name v.typeName text) := by
    cases v with
    | list items => exact absurd h (by rw [Value.isList, Value.kind]; decide)
    | _ => rfl
  rw [hdomain]
  cases hshown : v.shown with
  | ok text => exact ⟨_, rfl, .inl ⟨text, rfl, rfl⟩⟩
  | error f =>
    obtain rfl := shown_fails (R := (· = .tooManyDigits)) rfl v f hshown
    exact ⟨_, rfl, .inr ⟨rfl, rfl⟩⟩

end Domains

/-! ## What a round sees -/

/-- The last assignment to a name tells its value, and fields without one keep theirs. -/
theorem Fields.get_update (fields : Fields) (pairs : List (String × Value)) (name : String) :
    (fields.update pairs).get? name = (pairs.reverse.lookup name).or (fields.get? name) := by
  induction pairs generalizing fields with
  | nil => rfl
  | cons p pairs ih =>
    have hput : (List.lookup name [p]).or (fields.get? name) = (fields.put p.1 p.2).get? name := by
      rw [Fields.get_put, List.lookup_cons]
      by_cases h : name = p.1
      · rw [if_pos h, h, beq_self_eq_true]
        rfl
      · rw [if_neg h, beq_false_of_ne h]
        rfl
    rw [List.reverse_cons, List.lookup_append, Option.or_assoc, hput, ← ih]
    rfl

/-- Of pairs alone the last one with a name tells its value. -/
theorem Fields.get_ofPairs_reverse (pairs : List (String × Value)) (name : String) :
    (Fields.ofPairs pairs).get? name = pairs.reverse.lookup name := by
  rw [ofPairs, get_update]
  exact Option.or_none

/-- The scope in which a loop's body is evaluated after some results. -/
def roundScope (scope : Scope) (domains : List (String × List Value)) (results : List Value) : Scope :=
  (scope.extend (.ofPairs (chosen domains results.length))).extend [(partialKey, .list results)]

theorem get_roundScope (scope : Scope) (domains : List (String × List Value)) (results : List Value)
    (name : String) :
    (roundScope scope domains results).get? name =
      if name = partialKey then some (.list results)
      else ((chosen domains results.length).reverse.lookup name).or (scope.get? name) := by
  by_cases h : name = partialKey
  · rw [if_pos h, h]
    exact Scope.get_extend_self _ _ _
  · rw [if_neg h, roundScope, Scope.get_extend_other h, Scope.get_extend, Fields.get_ofPairs_reverse]

/-! ## The loop -/

section Loop

variable (registry : Fields) (scope : Scope) (bindings : List (String × Expr)) (body : Expr)

/-- The body of a loop after some results. -/
def loopRound (domains : List (String × List Value)) (results : List Value) : Eval Value :=
  body.eval registry (roundScope scope domains results)

variable {registry scope bindings}

/-- A loop over lists evaluates the lists, and then goes through its rounds. -/
theorem eval_loop {domains : List (String × List Value)}
    (h : GiveLists registry scope bindings domains) :
    ∃ history, IsHistory (loopRound registry scope body domains) history ∧
      ((history.length = rounds domains ∧
          ((Expr.loop bindings body).eval registry scope).outcome = .ok (.list history)) ∨
        (history.length < rounds domains ∧
          ∃ f, (loopRound registry scope body domains history).outcome = .error f ∧
            ((Expr.loop bindings body).eval registry scope).outcome = .error f)) ∧
      ((Expr.loop bindings body).eval registry scope).events = domainEvents registry scope bindings ++
        roundEvents (loopRound registry scope body domains) history 0 (rounds domains) := by
  have hnone : IsHistory (loopRound registry scope body domains) [] := fun j hj =>
    absurd hj (Nat.not_lt_zero j)
  obtain ⟨history, -, hhistory, hend, hevents⟩ :=
    collect_rounds (fun j => scope.extend (.ofPairs (chosen domains j))) (fun _ => rfl) hnone
      (rounds domains) (Nat.zero_add _)
  rw [List.length_nil, ← List.range_eq_range', ← loopScopes_rounds] at hend hevents
  generalize houtcome : (collect (body.eval registry) [] (loopScopes scope domains)).outcome = outcome
    at hend
  refine ⟨history, hhistory, ?_⟩
  rw [Expr.eval, evalDomains_lists h, Run.bind_of_ok rfl]
  cases hend with
  | all hlength =>
    rw [Run.bind_of_ok houtcome, hevents, Run.pure_events, List.append_nil]
    exact ⟨.inl ⟨hlength, rfl⟩, rfl⟩
  | failed hlength hf =>
    rw [Run.bind_of_error houtcome, hevents]
    exact ⟨.inr ⟨hlength, _, hf, rfl⟩, rfl⟩

/-- A value that is no list ends a loop before its body, after the expressions before it. -/
theorem eval_loop_of_not_list {before after : List (String × Expr)}
    {lists : List (String × List Value)} {name : String} {e : Expr} {v : Value}
    (hbefore : GiveLists registry scope before lists)
    (he : (e.eval registry scope).outcome = .ok v) (hv : v.isList = false) :
    ∃ f, (Expr.loop (before ++ (name, e) :: after) body).eval registry scope =
        ⟨domainEvents registry scope (before ++ [(name, e)]), .error f⟩ ∧
      ((∃ text, v.shown = .ok text ∧ f = .notAList name v.typeName text) ∨
        (v.shown = .error .tooManyDigits ∧ f = .tooManyDigits)) := by
  obtain ⟨f, hdomain, hf⟩ := domainOf_of_not_list name hv
  refine ⟨f, ?_, hf⟩
  rw [Expr.eval, evalDomains_fails hbefore he hdomain, Run.bind_of_error rfl]

/-- A range of integers is a list. -/
theorem eval_range {a b : Expr} {v w : Value} {low high : ℤ}
    (ha : (a.eval registry scope).outcome = .ok v) (hb : (b.eval registry scope).outcome = .ok w)
    (hv : v.whole? = some low) (hw : w.whole? = some high) :
    ((Expr.range a b).eval registry scope).outcome =
      .ok (.list ((integersBetween low high).map .whole)) := by
  have hrange : v.range w = .ok (integersBetween low high) := by rw [Value.range, hv, hw]
  rw [Expr.eval, Run.bind_of_ok ha, Run.bind_of_ok hb, hrange, Run.bind_of_ok rfl, Run.pure_outcome]

/-- What is evaluated after a loop is evaluated in the scope around it. -/
theorem eval_after_loop (e : Expr) :
    ((Expr.list [.loop bindings body, e]).eval registry scope).outcome = do
      let v ← ((Expr.loop bindings body).eval registry scope).outcome
      let w ← (e.eval registry scope).outcome
      return .list [v, w] := by
  rw [Expr.eval, Expr.evalItems, Expr.evalItems, Expr.evalItems]
  simp only [Run.bind_outcome, Run.pure_outcome, bind_assoc]
  rfl

variable (registry scope bindings)

/-- **A loop is a mixed-radix loop with a history.** First come the expressions of its names, in order and in
the scope around it. One that gives no list ends the loop before the body is run at all, with a message, or
with none if it has an integer of too many digits to be shown. Lists are gone through in rounds: the round
with number `j` evaluates the body over the elements at the digits of `j`, where the last of two equal names
wins, and over the list of the `j` results before it. The results of all rounds are the value, unless a round
fails. A range is a list, and what comes after the loop sees nothing of it. -/
theorem loop_runs_rounds :
    (∀ before name e after lists v, bindings = before ++ (name, e) :: after →
      GiveLists registry scope before lists → (e.eval registry scope).outcome = .ok v →
      v.isList = false →
      ∃ f, (Expr.loop bindings body).eval registry scope =
          ⟨domainEvents registry scope (before ++ [(name, e)]), .error f⟩ ∧
        ((∃ text, v.shown = .ok text ∧ f = .notAList name v.typeName text) ∨
          (v.shown = .error .tooManyDigits ∧ f = .tooManyDigits))) ∧
    (∀ domains, GiveLists registry scope bindings domains →
      ∃ history, IsHistory (loopRound registry scope body domains) history ∧
        ((history.length = rounds domains ∧
            ((Expr.loop bindings body).eval registry scope).outcome = .ok (.list history)) ∨
          (history.length < rounds domains ∧
            ∃ f, (loopRound registry scope body domains history).outcome = .error f ∧
              ((Expr.loop bindings body).eval registry scope).outcome = .error f)) ∧
        ((Expr.loop bindings body).eval registry scope).events =
          domainEvents registry scope bindings ++
            roundEvents (loopRound registry scope body domains) history 0 (rounds domains)) ∧
    (∀ domains results name, (roundScope scope domains results).get? name =
      if name = partialKey then some (.list results)
      else ((chosen domains results.length).reverse.lookup name).or (scope.get? name)) ∧
    (∀ a b v w low high, (a.eval registry scope).outcome = .ok v →
      (b.eval registry scope).outcome = .ok w → v.whole? = some low → w.whole? = some high →
      ((Expr.range a b).eval registry scope).outcome =
        .ok (.list ((integersBetween low high).map .whole))) ∧
    ∀ e, ((Expr.list [.loop bindings body, e]).eval registry scope).outcome = do
      let v ← ((Expr.loop bindings body).eval registry scope).outcome
      let w ← (e.eval registry scope).outcome
      return .list [v, w] := by
  refine ⟨?_, fun domains h => eval_loop body h, get_roundScope scope, ?_, eval_after_loop body⟩
  · rintro before name e after lists v rfl hbefore he hv
    exact eval_loop_of_not_list body hbefore he hv
  · exact fun a b v w low high ha hb hv hw => eval_range ha hb hv hw

end Loop

/-- Null after an empty list ends a loop. Lists of two and of three elements make six rounds. -/
theorem loop_runs_six_rounds :
    ((Expr.loop [("x", .list []), ("y", .null)] (.name "z")).eval [] ⟨[]⟩).outcome =
        .error (.notAList "y" "Null" "None") ∧
      ∃ history : List Value, history.length = 6 ∧
        ((Expr.loop [("x", .list [.null, .null]), ("y", .list [.null, .null, .null])] (.name "x")).eval
          [] ⟨[]⟩).outcome = .ok (.list history) := by
  constructor
  · have hlists : GiveLists [] ⟨[]⟩ [("x", .list [])] [("x", [])] := .cons ⟨rfl, rfl⟩ .nil
    obtain ⟨f, hrun, ⟨text, htext, rfl⟩ | ⟨hlong, -⟩⟩ :=
      (loop_runs_rounds [] ⟨[]⟩ [("x", .list []), ("y", .null)] (.name "z")).1 _ "y" .null [] _ .null
        rfl hlists rfl rfl
    · cases htext
      exact congrArg Run.outcome hrun
    · cases hlong
  · have hlists : GiveLists [] ⟨[]⟩
        [("x", .list [.null, .null]), ("y", .list [.null, .null, .null])]
        [("x", [.null, .null]), ("y", [.null, .null, .null])] :=
      .cons ⟨rfl, rfl⟩ (.cons ⟨rfl, rfl⟩ .nil)
    obtain ⟨history, -, hend, -⟩ := (loop_runs_rounds [] ⟨[]⟩ _ (.name "x")).2.1 _ hlists
    obtain ⟨hlength, hrun⟩ | ⟨-, f, hf, -⟩ := hend
    · exact ⟨history, hlength, hrun⟩
    · cases hf

/-- A loop over a number that is too long to be shown fails without the message. -/
theorem loop_over_long_number_unannounced :
    (evaluate .standard "for x in (10**1000)**5 return x" []).outcome = .error .tooManyDigits ∧
      ¬ Failure.Documented .tooManyDigits := by
  have hfail : failureOf (evaluate .standard "for x in (10**1000)**5 return x" []).outcome =
      some .tooManyDigits := by decide +kernel
  exact ⟨eq_error_of_failureOf hfail, by decide⟩

end Criterion

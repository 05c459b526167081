import Criterion.Eval
import Criterion.Proofs.Runs
import Mathlib.Data.List.Forall2

/-!
# The texts of calls

An expression keeps the text of each call, to quote it if the callee is no function. Without these texts it has
the same value, makes the same calls, and fails alike. A test by comparison holds a run that may have failed with
such a text, so this needs that tests are matched only, and are no values.

* `Run.Alike`: runs with the same events whose failures differ in quoted texts only.
* `Expr.unquoted`: an expression without the texts of its calls.
* `Expr.Ranked`: tests by comparison stand only where they are matched.
* `Expr.eval_unquoted`: **the texts of calls decide about nothing but the messages of failures.**
-/

namespace Criterion

/-! ## Runs -/

/-- The failure without the text that it quotes. -/
def Failure.unquoted : Failure → Failure
  | .notAFunction _ => .notAFunction ""
  | e => e

section Alike

variable {ε α β γ δ : Type} {R : α → β → Prop} {S : γ → δ → Prop}

/-- Outcomes with values that stand in a relation, or failures that differ in quoted texts only. -/
inductive EndsAlike (R : α → β → Prop) : Except Failure α → Except Failure β → Prop where
  | ok {a : α} {b : β} : R a b → EndsAlike R (.ok a) (.ok b)
  | error {e f : Failure} : e.unquoted = f.unquoted → EndsAlike R (.error e) (.error f)

namespace EndsAlike

/-- An outcome that is alike, and one that is alike to what is made of it. -/
theorem map_trans {f : α → β} {x y : Except Failure α} {z : Except Failure β} (h : EndsAlike (· = ·) x y)
    (h' : EndsAlike (· = ·) z (y.map f)) : EndsAlike (fun a b => b = f a) x z := by
  cases h with
  | ok hxy =>
    subst hxy
    cases h' with
    | ok hz => exact .ok hz
  | error he =>
    cases h' with
    | error he' => exact .error (he.trans he'.symm)

/-- What is made of outcomes that are alike. -/
theorem map {f : α → γ} {g : β → δ} {x : Except Failure α} {y : Except Failure β} (h : EndsAlike R x y)
    (hfg : ∀ a b, R a b → S (f a) (g b)) : EndsAlike S (x.map f) (y.map g) := by
  cases h with
  | ok hab => exact .ok (hfg _ _ hab)
  | error he => exact .error he

end EndsAlike

/-- Runs with the same events and outcomes that are alike. -/
structure Run.Alike (R : α → β → Prop) (r : Run ε α) (r' : Run ε β) : Prop where
  events : r.events = r'.events
  ends : EndsAlike R r.outcome r'.outcome

namespace Run.Alike

variable {r : Run ε α} {r' : Run ε β} {a : α} {b : β}

theorem pure (h : R a b) : Alike R (pure a : Run ε α) (pure b : Run ε β) := ⟨rfl, .ok h⟩

theorem refl (r : Run ε α) : Alike (· = ·) r r := by
  refine ⟨rfl, ?_⟩
  cases r.outcome with
  | ok a => exact .ok rfl
  | error e => exact .error rfl

theorem mono {R' : α → β → Prop} (h : Alike R r r') (hR : ∀ a b, R a b → R' a b) : Alike R' r r' := by
  obtain ⟨hevents, hends⟩ := h
  refine ⟨hevents, ?_⟩
  revert hends
  generalize r.outcome = outcome
  generalize r'.outcome = outcome'
  rintro (hab | he)
  · exact .ok (hR _ _ hab)
  · exact .error he

theorem bind {f : α → Run ε γ} {f' : β → Run ε δ} (h : Alike R r r')
    (hf : ∀ a b, R a b → Alike S (f a) (f' b)) : Alike S (r >>= f) (r' >>= f') := by
  obtain ⟨events, outcome⟩ := r
  obtain ⟨events', outcome'⟩ := r'
  obtain ⟨rfl, hends⟩ := h
  cases hends with
  | ok hab =>
    rw [bind_of_ok rfl, bind_of_ok rfl]
    exact ⟨congrArg (events ++ ·) (hf _ _ hab).events, (hf _ _ hab).ends⟩
  | error he =>
    rw [bind_of_error rfl, bind_of_error rfl]
    exact ⟨rfl, .error he⟩

/-- Runs with the same value, one after the other. -/
theorem bind_eq {r r' : Run ε α} {f : α → Run ε γ} {f' : α → Run ε δ} (h : Alike (· = ·) r r')
    (hf : ∀ a, Alike S (f a) (f' a)) : Alike S (r >>= f) (r' >>= f') :=
  h.bind fun a _ hab => hab ▸ hf a

/-- What is made of the same value. -/
theorem map_eq {r r' : Run ε α} (f : α → γ) (h : Alike (· = ·) r r') :
    Alike (· = ·) (do return f (← r)) (do return f (← r')) :=
  h.bind_eq fun _ => pure rfl

end Run.Alike

end Alike

/-! ## Tests -/

/-- Tests that every value passes alike. -/
def TestAlike (t t' : Value) : Prop := ∀ v : Value, Run.Alike (· = ·) (v.passes t) (v.passes t')

/-- What is expected of a value: to be used as it is, to be matched, or to have its elements matched. -/
def Value.AlikeAs (rank : ℕ) : Value → Value → Prop :=
  match rank with
  | 0 => (· = ·)
  | 1 => TestAlike
  | _ => fun t t' => List.Forall₂ TestAlike t.elements t'.elements

theorem testAlike_refl (t : Value) : TestAlike t t := fun _ => .refl _

theorem Value.alikeAs_refl (rank : ℕ) (v : Value) : v.AlikeAs rank v := by
  match rank with
  | 0 => exact rfl
  | 1 => exact testAlike_refl v
  | _ + 2 => exact List.forall₂_same.2 fun t _ => testAlike_refl t

theorem passesAny_alike (v : Value) {ts ts' : List Value} (h : List.Forall₂ TestAlike ts ts') :
    Run.Alike (· = ·) (v.passesAny ts) (v.passesAny ts') := by
  induction h with
  | nil => exact .refl _
  | cons ht _ ih =>
    refine (ht v).bind_eq fun passed => ?_
    cases passed with
    | true => exact .refl _
    | false => exact ih

/-! ## Loops and filters -/

section Bodies

variable {body body' : Scope → Eval Value} (h : ∀ s, Run.Alike (· = ·) (body s) (body' s))

include h

theorem collect_alike (scopes : List Scope) : ∀ results,
    Run.Alike (· = ·) (collect body results scopes) (collect body' results scopes) := by
  induction scopes with
  | nil => exact fun _ => .refl _
  | cons s rest ih => exact fun results => (h _).bind_eq fun v => ih (results ++ [v])

theorem decideQuantifier_alike (q : Quantifier) (scopes : List Scope) :
    Run.Alike (· = ·) (decideQuantifier q body scopes) (decideQuantifier q body' scopes) := by
  induction scopes with
  | nil => exact .refl _
  | cons s rest ih =>
    refine (h s).bind_eq fun v => ?_
    cases q with
    | every =>
      dsimp only
      split
      · exact ih
      · exact .refl _
    | some =>
      dsimp only
      split
      · exact .refl _
      · exact ih

theorem selectWhere_alike (s : Scope) (items : List Value) :
    Run.Alike (· = ·) (selectWhere body s items) (selectWhere body' s items) := by
  induction items with
  | nil => exact .refl _
  | cons item rest ih =>
    have hkept : ∀ holds : Value, Run.Alike (· = ·)
        (do
          let others ← selectWhere body s rest
          return if holds.isTrue then item :: others else others)
        (do
          let others ← selectWhere body' s rest
          return if holds.isTrue then item :: others else others) :=
      fun holds => ih.map_eq fun others => if holds.isTrue then item :: others else others
    refine (h _).bind_eq fun outcome => ?_
    cases outcome with
    | probe p => exact Run.Alike.bind_eq (.refl _) hkept
    | _ => exact Run.Alike.bind_eq (.refl _) hkept

theorem select_alike (target : Value) (tag : Option Tag) (s : Scope) :
    Run.Alike (· = ·) (select target tag body s) (select target tag body' s) := by
  unfold select
  split
  · exact .refl _
  split
  · exact (h s).bind_eq fun _ => .refl _
  · exact (h s).bind_eq fun _ => .refl _
  · exact (h s).map_eq _
  · exact (selectWhere_alike h s _).map_eq _

end Bodies

/-! ## Expressions -/

namespace Expr

mutual

/-- The expression without the texts of its calls. -/
def unquoted : Expr → Expr
  | .list items => .list (unquotedItems items)
  | .context entries => .context (unquotedEntries entries)
  | .unary op a => .unary op (unquoted a)
  | .arithmetic op a b => .arithmetic op (unquoted a) (unquoted b)
  | .relation op a b => .relation op (unquoted a) (unquoted b)
  | .between a low high => .between (unquoted a) (unquoted low) (unquoted high)
  | .member a tests => .member (unquoted a) (unquoted tests)
  | .disjunction a b => .disjunction (unquoted a) (unquoted b)
  | .conjunction a b => .conjunction (unquoted a) (unquoted b)
  | .instanceOf a type => .instanceOf (unquoted a) type
  | .choose condition yes none => .choose (unquoted condition) (unquoted yes) none
  | .choose condition yes (some no) => .choose (unquoted condition) (unquoted yes) (some (unquoted no))
  | .loop bindings body => .loop (unquotedEntries bindings) (unquoted body)
  | .quantified q bindings condition => .quantified q (unquotedEntries bindings) (unquoted condition)
  | .range a b => .range (unquoted a) (unquoted b)
  | .call _ callee arguments => .call "" (unquoted callee) (unquotedItems arguments)
  | .path target field => .path (unquoted target) field
  | .filter target condition => .filter (unquoted target) (unquoted condition)
  | .test site op operand => .test site op (unquoted operand)
  | .interval site includesStart start stop includesStop =>
    .interval site includesStart (unquoted start) (unquoted stop) includesStop
  | .null => .null
  | .boolean b => .boolean b
  | .number n => .number n
  | .text s => .text s
  | .wildcard => .wildcard
  | .name n => .name n
  | .registered n => .registered n
  | .input => .input
  | .procedure => .procedure

def unquotedItems : List Expr → List Expr
  | [] => []
  | e :: rest => unquoted e :: unquotedItems rest

def unquotedEntries : List (String × Expr) → List (String × Expr)
  | [] => []
  | (key, e) :: rest => (key, unquoted e) :: unquotedEntries rest

end

mutual

/-- Tests by comparison stand in an expression only where they are matched. The expression itself may be one if
its rank is one at least, and a list of them if its rank is two. -/
def Ranked : ℕ → Expr → Prop
  | rank, .test _ _ operand => 1 ≤ rank ∧ Ranked 0 operand
  | rank, .list items => RankedItems (rank - 1) items
  | _, .member a tests => Ranked 0 a ∧ Ranked 2 tests
  | _, .context entries => RankedEntries entries
  | _, .unary _ a => Ranked 0 a
  | _, .arithmetic _ a b => Ranked 0 a ∧ Ranked 0 b
  | _, .relation _ a b => Ranked 0 a ∧ Ranked 0 b
  | _, .between a low high => Ranked 0 a ∧ Ranked 0 low ∧ Ranked 0 high
  | _, .disjunction a b => Ranked 0 a ∧ Ranked 0 b
  | _, .conjunction a b => Ranked 0 a ∧ Ranked 0 b
  | _, .instanceOf a _ => Ranked 0 a
  | _, .choose condition yes none => Ranked 0 condition ∧ Ranked 0 yes
  | _, .choose condition yes (some no) => Ranked 0 condition ∧ Ranked 0 yes ∧ Ranked 0 no
  | _, .loop bindings body => RankedEntries bindings ∧ Ranked 0 body
  | _, .quantified _ bindings condition => RankedEntries bindings ∧ Ranked 0 condition
  | _, .range a b => Ranked 0 a ∧ Ranked 0 b
  | _, .call _ callee arguments => Ranked 0 callee ∧ RankedItems 0 arguments
  | _, .path target _ => Ranked 0 target
  | _, .filter target condition => Ranked 0 target ∧ Ranked 0 condition
  | _, .interval _ _ start stop _ => Ranked 0 start ∧ Ranked 0 stop
  | _, .null => True
  | _, .boolean _ => True
  | _, .number _ => True
  | _, .text _ => True
  | _, .wildcard => True
  | _, .name _ => True
  | _, .registered _ => True
  | _, .input => True
  | _, .procedure => True

def RankedItems : ℕ → List Expr → Prop
  | _, [] => True
  | rank, e :: rest => Ranked rank e ∧ RankedItems rank rest

def RankedEntries : List (String × Expr) → Prop
  | [] => True
  | (_, e) :: rest => Ranked 0 e ∧ RankedEntries rest

end

theorem tag_unquoted : ∀ e : Expr, e.unquoted.tag = e.tag
  | .unary op a => tag_unquoted a
  | .arithmetic op a b => by rw [unquoted, tag, tag, tag_unquoted a, tag_unquoted b]
  | .choose condition yes (some no) => by rw [unquoted, tag, tag, tag_unquoted yes, tag_unquoted no]
  | .choose condition yes none => rfl
  | .null | .boolean _ | .number _ | .text _ | .wildcard | .name _ | .registered _ | .input | .list _
  | .context _ | .relation .. | .between .. | .member .. | .disjunction .. | .conjunction ..
  | .instanceOf .. | .loop .. | .quantified .. | .range .. | .call .. | .path .. | .filter ..
  | .test .. | .interval .. | .procedure => rfl

section Alike

variable {registry : Fields}

/-- The same values are alike whatever is expected of them. -/
theorem alike_of_eq {r r' : Eval Value} (h : Run.Alike (· = ·) r r') (rank : ℕ) :
    Run.Alike (Value.AlikeAs rank) r r' :=
  h.mono fun v _ hvw => hvw ▸ v.alikeAs_refl rank

/-- A test by comparison is passed alike if its operand is evaluated alike. -/
theorem test_alike {site : ℕ} {op : Relation} {r r' : Eval Value} (h : Run.Alike (· = ·) r r') (reports : Bool) :
    TestAlike (.probe (.relation site op r reports)) (.probe (.relation site op r' reports)) := by
  intro v
  have hmatch : Run.Alike (· = ·) ((Probe.relation site op r reports).match v)
      ((Probe.relation site op r' reports).match v) := h.map_eq fun w => answer reports v (Value.compare? op v w)
  exact hmatch.map_eq Value.isNonzero

/-- Two operands and what is made of their values. -/
theorem map₂_alike {r r' q q' : Eval Value} (f : Value → Value → Value) (h : Run.Alike (· = ·) r r')
    (h' : Run.Alike (· = ·) q q') :
    Run.Alike (· = ·) (do let v ← r; let w ← q; return f v w) (do let v ← r'; let w ← q'; return f v w) :=
  h.bind_eq fun v => h'.map_eq (f v)

mutual

/-- **The texts of calls decide about nothing but the messages of failures.** -/
theorem eval_unquoted : ∀ (e : Expr) (rank : ℕ), rank ≤ 2 → e.Ranked rank → ∀ s : Scope,
    Run.Alike (Value.AlikeAs rank) (eval registry e s) (eval registry e.unquoted s)
  | .null, rank, _, _, s | .boolean _, rank, _, _, s | .number _, rank, _, _, s | .text _, rank, _, _, s
  | .wildcard, rank, _, _, s | .name _, rank, _, _, s | .registered _, rank, _, _, s | .input, rank, _, _, s
  | .procedure, rank, _, _, s => alike_of_eq (.refl _) rank
  | .test site op operand, rank, hrank, ⟨hone, hoperand⟩, s => by
    have htest := @test_alike site op _ _ (eval_unquoted operand 0 (Nat.zero_le 2) hoperand s)
      s.reports
    refine .pure ?_
    match rank with
    | 1 => exact htest
    | 2 => exact .cons htest .nil
  | .list items, rank, hrank, h, s => by
    have hitems := evalItems_unquoted items (rank - 1) (by omega) h s
    refine hitems.bind fun vs ws hvs => .pure ?_
    match rank with
    | 0 => exact congrArg Value.list (List.forall₂_eq_eq_eq ▸ hvs)
    | 1 =>
      obtain rfl : vs = ws := List.forall₂_eq_eq_eq ▸ hvs
      exact testAlike_refl _
    | 2 => exact hvs
  | .context entries, rank, _, h, s =>
    alike_of_eq ((evalEntries_unquoted entries h s).map_eq fun fields => Value.context (Fields.ofPairs fields)) rank
  | .unary op a, rank, _, h, s =>
    alike_of_eq ((eval_unquoted a 0 (Nat.zero_le 2) h s).map_eq (Value.arithmetic op (.whole 0))) rank
  | .arithmetic op a b, rank, _, ⟨ha, hb⟩, s =>
    alike_of_eq (map₂_alike (Value.arithmetic op) (eval_unquoted a 0 (Nat.zero_le 2) ha s)
      (eval_unquoted b 0 (Nat.zero_le 2) hb s)) rank
  | .relation op a b, rank, _, ⟨ha, hb⟩, s =>
    alike_of_eq (map₂_alike (fun v w => answer s.reports v (Value.compare? op v w))
      (eval_unquoted a 0 (Nat.zero_le 2) ha s) (eval_unquoted b 0 (Nat.zero_le 2) hb s)) rank
  | .between a low high, rank, _, ⟨ha, hlow, hhigh⟩, s =>
    alike_of_eq (Run.Alike.bind_eq (eval_unquoted a 0 (Nat.zero_le 2) ha s) fun v =>
      map₂_alike (fun start stop => answer s.reports v (v.between? start stop))
        (eval_unquoted low 0 (Nat.zero_le 2) hlow s) (eval_unquoted high 0 (Nat.zero_le 2) hhigh s)) rank
  | .member a tests, rank, _, ⟨ha, htests⟩, s =>
    alike_of_eq (Run.Alike.bind_eq (eval_unquoted a 0 (Nat.zero_le 2) ha s) fun v =>
      (eval_unquoted tests 2 (Nat.le_refl 2) htests s).bind fun t t' ht =>
        (passesAny_alike v ht).map_eq fun found => answer s.reports v (some found)) rank
  | .disjunction a b, rank, _, ⟨ha, hb⟩, s =>
    alike_of_eq (Run.Alike.bind_eq (eval_unquoted a 0 (Nat.zero_le 2) ha s) fun v =>
      Run.Alike.bind_eq (eval_unquoted b 0 (Nat.zero_le 2) hb s) fun w => .refl _) rank
  | .conjunction a b, rank, _, ⟨ha, hb⟩, s =>
    alike_of_eq (Run.Alike.bind_eq (eval_unquoted a 0 (Nat.zero_le 2) ha s) fun v =>
      Run.Alike.bind_eq (eval_unquoted b 0 (Nat.zero_le 2) hb s) fun w => .refl _) rank
  | .instanceOf a type, rank, _, h, s =>
    alike_of_eq ((eval_unquoted a 0 (Nat.zero_le 2) h s).map_eq
      fun v : Value => Value.boolean (v.isInstance type)) rank
  | .choose condition yes none, rank, _, ⟨hcondition, hyes⟩, s => by
    refine alike_of_eq (Run.Alike.bind_eq (eval_unquoted condition 0 (Nat.zero_le 2) hcondition s) fun v => ?_) rank
    split
    · exact eval_unquoted yes 0 (Nat.zero_le 2) hyes s
    · exact .refl _
  | .choose condition yes (some no), rank, _, ⟨hcondition, hyes, hno⟩, s => by
    refine alike_of_eq (Run.Alike.bind_eq (eval_unquoted condition 0 (Nat.zero_le 2) hcondition s) fun v => ?_) rank
    split
    · exact eval_unquoted yes 0 (Nat.zero_le 2) hyes s
    · exact eval_unquoted no 0 (Nat.zero_le 2) hno s
  | .loop bindings body, rank, _, ⟨hbindings, hbody⟩, s =>
    alike_of_eq ((evalDomains_unquoted bindings hbindings s).bind_eq fun domains =>
      (collect_alike (eval_unquoted body 0 (Nat.zero_le 2) hbody) (loopScopes s domains) []).map_eq Value.list) rank
  | .quantified q bindings condition, rank, _, ⟨hbindings, hcondition⟩, s =>
    alike_of_eq ((evalDomains_unquoted bindings hbindings s).bind_eq fun domains =>
      (decideQuantifier_alike (eval_unquoted condition 0 (Nat.zero_le 2) hcondition) q
        (loopScopes s domains)).map_eq Value.boolean) rank
  | .range a b, rank, _, ⟨ha, hb⟩, s =>
    alike_of_eq (Run.Alike.bind_eq (eval_unquoted a 0 (Nat.zero_le 2) ha s) fun v =>
      Run.Alike.bind_eq (eval_unquoted b 0 (Nat.zero_le 2) hb s) fun w => .refl _) rank
  | .call source callee arguments, rank, _, ⟨hcallee, harguments⟩, s => by
    refine alike_of_eq (Run.Alike.bind_eq (eval_unquoted callee 0 (Nat.zero_le 2) hcallee s) fun f => ?_) rank
    split
    · exact ⟨rfl, .error rfl⟩
    · refine (evalItems_unquoted arguments 0 (Nat.zero_le 1) harguments s).bind fun vs ws hvs => ?_
      obtain rfl : vs = ws := List.forall₂_eq_eq_eq ▸ hvs
      exact .refl _
  | .path target field, rank, _, h, s =>
    alike_of_eq ((eval_unquoted target 0 (Nat.zero_le 2) h s).map_eq fun v : Value => v.fieldOrFields field) rank
  | .filter target condition, rank, _, ⟨htarget, hcondition⟩, s => by
    refine alike_of_eq (Run.Alike.bind_eq (eval_unquoted target 0 (Nat.zero_le 2) htarget s) fun v => ?_) rank
    rw [tag_unquoted]
    exact select_alike (eval_unquoted condition 0 (Nat.zero_le 2) hcondition) v condition.tag s
  | .interval site includesStart start stop includesStop, rank, _, ⟨hstart, hstop⟩, s =>
    alike_of_eq (map₂_alike (fun v w => .probe (.interval site ⟨v, w, includesStart, includesStop⟩ s.reports))
      (eval_unquoted start 0 (Nat.zero_le 2) hstart s) (eval_unquoted stop 0 (Nat.zero_le 2) hstop s)) rank

theorem evalItems_unquoted : ∀ (es : List Expr) (rank : ℕ), rank ≤ 1 → RankedItems rank es → ∀ s : Scope,
    Run.Alike (List.Forall₂ (Value.AlikeAs rank)) (evalItems registry es s) (evalItems registry (unquotedItems es) s)
  | [], _, _, _, _ => .pure .nil
  | e :: rest, rank, hrank, ⟨he, hrest⟩, s =>
    (eval_unquoted e rank (Nat.le_succ_of_le hrank) he s).bind fun _ _ hv =>
      (evalItems_unquoted rest rank hrank hrest s).bind fun _ _ hvs => .pure (.cons hv hvs)

theorem evalEntries_unquoted : ∀ es : List (String × Expr), RankedEntries es → ∀ s : Scope,
    Run.Alike (· = ·) (evalEntries registry es s) (evalEntries registry (unquotedEntries es) s)
  | [], _, _ => .refl _
  | (key, e) :: rest, ⟨he, hrest⟩, s =>
    Run.Alike.bind_eq (eval_unquoted e 0 (Nat.zero_le 2) he s) fun v =>
      (evalEntries_unquoted rest hrest s).map_eq fun others => (key, v) :: others

theorem evalDomains_unquoted : ∀ es : List (String × Expr), RankedEntries es → ∀ s : Scope,
    Run.Alike (· = ·) (evalDomains registry es s) (evalDomains registry (unquotedEntries es) s)
  | [], _, _ => .refl _
  | (key, e) :: rest, ⟨he, hrest⟩, s =>
    Run.Alike.bind_eq (eval_unquoted e 0 (Nat.zero_le 2) he s) fun _ => Run.Alike.bind_eq (.refl _) fun items =>
      (evalDomains_unquoted rest hrest s).map_eq fun others => (key, items) :: others

end

end Alike

end Expr

end Criterion

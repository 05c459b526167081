import Criterion.Memory.Sitting
import Criterion.Proofs.Decision
import Criterion.Proofs.Rounds

/-!
# The laws of quantifiers

A quantifier asks its condition for one combination of elements after the other, the last name fastest, until an
answer decides. Both quantifiers do so alike: where `every` asks a condition, `some` may ask its denial, with the
same calls in the same order. One quantifier over several names is a nest of quantifiers over one name each, if
the lists of the later names do not depend on the earlier names and leave no calls.

* `digits_lex`, `exists_digits`: combinations come in lexicographic order, and none is left out.
* `Quantifier.decides`, `SearchEnd`: which answers decide, and how the search for one ends.
* `decideQuantifier_dual`: **the two quantifiers are dual.**
* `decideQuantifier_searches`: **the condition is asked up to the first combination that decides or fails.**
* `loopScopes_cons`, `decideQuantifier_flatMap`: a loop in a loop has the scopes of one loop, and a search of searches
  is one search.
* `Expr.quantified_eq_nested`: **one quantifier over several names is a nest of quantifiers over one name each.**
* `quantifiers_search_in_order`: all of this of quantified expressions, as far as values tell their answers.
-/

namespace Criterion

/-! ## The order of combinations -/

/-- Later numbers have later digits. -/
theorem digits_lex {radices : List ℕ} {i j : ℕ} (hij : i < j) (hj : j < radices.prod) :
    List.Lex (· < ·) (digits radices i) (digits radices j) := by
  induction radices generalizing i j with
  | nil =>
    rw [List.prod_nil] at hj
    omega
  | cons radix radices ih =>
    rw [List.prod_cons] at hj
    have hpos : 0 < radices.prod := Nat.pos_of_ne_zero fun hzero => by
      rw [hzero, Nat.mul_zero] at hj
      omega
    have hle : i / radices.prod ≤ j / radices.prod := Nat.div_le_div_right hij.le
    unfold digits
    -- where the first digits are equal, the rests of the two numbers keep their order
    rcases hle.lt_or_eq with hlt | heq
    · exact .rel hlt
    · rw [heq]
      refine .cons (ih ?_ (Nat.mod_lt j hpos))
      have hi := Nat.div_add_mod i radices.prod
      have hj := Nat.div_add_mod j radices.prod
      rw [heq] at hi
      omega

/-- Every choice of a place in each list is taken in some round. -/
theorem exists_digits {places radices : List ℕ} (h : List.Forall₂ (· < ·) places radices) :
    ∃ j < radices.prod, digits radices j = places := by
  induction h with
  | nil => exact ⟨0, Nat.one_pos, rfl⟩
  | @cons place radix places radices hplace _ ih =>
    obtain ⟨j, hj, hdigits⟩ := ih
    refine ⟨radices.prod * place + j, ?_, ?_⟩
    · rw [List.prod_cons]
      calc radices.prod * place + j < radices.prod * (place + 1) := by rw [Nat.mul_succ]; omega
        _ ≤ radices.prod * radix := Nat.mul_le_mul_left _ hplace
        _ = radix * radices.prod := Nat.mul_comm _ _
    · unfold digits
      rw [Nat.mul_add_div (by omega), Nat.div_eq_of_lt hj, Nat.add_zero, Nat.mul_add_mod, Nat.mod_eq_of_lt hj,
        hdigits]

/-! ## Answers that decide -/

namespace Quantifier

/-- What a quantifier says if no answer decides. -/
def undecided : Quantifier → Bool
  | .every => true
  | .some => false

/-- Whether an answer of the condition decides: for `every` one that is not true, for `some` one that is. -/
def decides (q : Quantifier) (v : Value) : Bool := v.isTrue != q.undecided

/-- The other quantifier. -/
def dual : Quantifier → Quantifier
  | .every => .some
  | .some => .every

@[simp] theorem undecided_dual (q : Quantifier) : q.dual.undecided = !q.undecided := by
  cases q <;> rfl

/-- The denial of an answer decides the other quantifier exactly if the answer decides this one. -/
@[simp] theorem decides_dual (q : Quantifier) (v : Value) :
    q.dual.decides (.boolean (!v.isTrue)) = q.decides v := by
  unfold decides
  rw [undecided_dual, Value.isTrue]
  cases v.isTrue <;> cases q.undecided <;> rfl

end Quantifier

section Search

variable {q : Quantifier} {condition condition' : Scope → Eval Value} {s : Scope} {scopes rest : List Scope}

@[simp] theorem decideQuantifier_nil : decideQuantifier q condition [] = pure q.undecided := by
  cases q <;> rfl

theorem decideQuantifier_cons : decideQuantifier q condition (s :: rest) = condition s >>= fun v =>
    if q.decides v then return !q.undecided else decideQuantifier q condition rest := by
  rw [decideQuantifier]
  refine Run.bind_congr fun v _ => ?_
  cases q <;> cases h : v.isTrue <;> simp [Quantifier.decides, Quantifier.undecided, h]

/-- In one scope a quantifier says whether its condition is true there. -/
theorem decideQuantifier_singleton : decideQuantifier q condition [s] = do return (← condition s).isTrue := by
  rw [decideQuantifier_cons]
  refine Run.bind_congr fun v _ => ?_
  cases hdecides : q.decides v with
  | true =>
    have htrue : v.isTrue = !q.undecided := Bool.eq_not_of_ne (bne_iff_ne.1 hdecides)
    rw [htrue, if_pos rfl]
  | false =>
    have htrue : v.isTrue = q.undecided := bne_eq_false_iff_eq.1 hdecides
    rw [htrue, decideQuantifier_nil, if_neg Bool.false_ne_true]

/-- A condition is only asked whether it is true. -/
theorem decideQuantifier_congr
    (h : ∀ s ∈ scopes, (do return (← condition s).isTrue : Eval Bool) = do return (← condition' s).isTrue) :
    decideQuantifier q condition scopes = decideQuantifier q condition' scopes := by
  induction scopes with
  | nil => simp
  | cons s rest ih =>
    obtain ⟨hs, hrest⟩ := List.forall_mem_cons.1 h
    -- what is done with an answer only depends on whether it is true
    have hasked : ∀ f : Bool → Eval Bool,
        (condition s >>= fun v => f v.isTrue) = condition' s >>= fun v => f v.isTrue := by
      intro f
      have hthen := congrArg (· >>= f) hs
      simpa only [bind_assoc, pure_bind] using hthen
    rw [decideQuantifier_cons, decideQuantifier_cons, ih hrest]
    exact hasked fun b => if b != q.undecided then return !q.undecided else decideQuantifier q condition' rest

/-- **The two quantifiers are dual**: one says of a condition what the other denies of its denial. -/
theorem decideQuantifier_dual (h : ∀ s, condition' s = do return .boolean (!(← condition s).isTrue)) :
    decideQuantifier q condition scopes = do return !(← decideQuantifier q.dual condition' scopes) := by
  induction scopes with
  | nil => simp
  | cons s rest ih =>
    rw [decideQuantifier_cons, decideQuantifier_cons, h, ih]
    simp only [bind_assoc, pure_bind, Quantifier.decides_dual, Quantifier.undecided_dual]
    refine Run.bind_congr fun v _ => ?_
    cases q.decides v with
    | false => rfl
    | true => simp

/-- Behind scopes that do not decide the search goes on. -/
theorem decideQuantifier_append (q : Quantifier) (condition : Scope → Eval Value) (scopes more : List Scope) :
    decideQuantifier q condition (scopes ++ more) = do
      let b ← decideQuantifier q condition scopes
      if b = q.undecided then decideQuantifier q condition more else return b := by
  induction scopes with
  | nil => simp
  | cons s rest ih =>
    rw [List.cons_append, decideQuantifier_cons, decideQuantifier_cons, bind_assoc, ih]
    refine Run.bind_congr fun v _ => ?_
    cases q.decides v with
    | false => rfl
    | true => simp

/-- A search of searches is one search. -/
theorem decideQuantifier_flatMap (inner : Scope → List Scope) (scopes : List Scope) :
    decideQuantifier q (fun t => do return .boolean (← decideQuantifier q condition (inner t))) scopes =
      decideQuantifier q condition (scopes.flatMap inner) := by
  induction scopes with
  | nil => simp
  | cons s rest ih =>
    rw [decideQuantifier_cons, List.flatMap_cons, decideQuantifier_append, bind_assoc, ih]
    refine Run.bind_congr fun b _ => ?_
    rw [pure_bind, Quantifier.decides, Value.isTrue]
    -- an inner search without a decision hands over to the next one
    by_cases hb : b = q.undecided
    · simp [hb]
    · simp [Bool.eq_not_of_ne hb]

end Search

/-! ## The search -/

section Rounds

variable {q : Quantifier} {round : ℕ → Eval Value} {count n : ℕ} {run : Eval Bool}

/-- The events of the first rounds. -/
def eventsBefore (round : ℕ → Eval Value) (n : ℕ) : List (List Value) :=
  (List.range n).flatMap fun j => (round j).events

/-- The ends of a search through so many rounds: all rounds are done, or the round with number `n` decides or
fails. -/
inductive SearchEnd (q : Quantifier) (round : ℕ → Eval Value) (count : ℕ) : ℕ → Eval Bool → Prop where
  | exhausted : SearchEnd q round count count ⟨eventsBefore round count, .ok q.undecided⟩
  | decided {n : ℕ} {v : Value} (hn : n < count) (hv : (round n).outcome = .ok v) (h : q.decides v = true) :
    SearchEnd q round count n ⟨eventsBefore round (n + 1), .ok (!q.undecided)⟩
  | failed {n : ℕ} {f : Failure} (hn : n < count) (hf : (round n).outcome = .error f) :
    SearchEnd q round count n ⟨eventsBefore round (n + 1), .error f⟩

/-- A round answers, and its answer does not decide. -/
def Quantifier.Passes (q : Quantifier) (round : Eval Value) : Prop :=
  ∃ v, round.outcome = .ok v ∧ q.decides v = false

theorem eventsBefore_succ (round : ℕ → Eval Value) (n : ℕ) :
    eventsBefore round (n + 1) = (round 0).events ++ eventsBefore (fun j => round (j + 1)) n := by
  unfold eventsBefore
  rw [List.range_succ_eq_map, List.flatMap_cons, List.flatMap_map]

/-- With one round more before it a search ends in the same way. -/
theorem SearchEnd.behind (h : SearchEnd q (fun j => round (j + 1)) count n run) :
    SearchEnd q round (count + 1) (n + 1) ⟨(round 0).events ++ run.events, run.outcome⟩ := by
  cases h with
  | exhausted =>
    rw [← eventsBefore_succ]
    exact .exhausted
  | decided hn hw hdecides =>
    rw [← eventsBefore_succ]
    exact .decided (Nat.succ_lt_succ hn) hw hdecides
  | failed hn hf =>
    rw [← eventsBefore_succ]
    exact .failed (Nat.succ_lt_succ hn) hf

/-- **The condition is asked in one round after the other, up to the first one that decides or fails.** -/
theorem decideQuantifier_searches (condition : Scope → Eval Value) (count : ℕ) : ∀ scopeAt : ℕ → Scope,
    ∃ n, (∀ j < n, q.Passes (condition (scopeAt j))) ∧
      SearchEnd q (fun j => condition (scopeAt j)) count n
        (decideQuantifier q condition ((List.range count).map scopeAt)) := by
  induction count with
  | zero =>
    intro scopeAt
    refine ⟨0, fun j hj => absurd hj (Nat.not_lt_zero j), ?_⟩
    rw [List.range_zero, List.map_nil, decideQuantifier_nil]
    exact .exhausted
  | succ count ih =>
    intro scopeAt
    have hfirst : ∀ j < 0, q.Passes (condition (scopeAt j)) := fun j hj => absurd hj (Nat.not_lt_zero j)
    have hone : (condition (scopeAt 0)).events = eventsBefore (fun j => condition (scopeAt j)) 1 :=
      (List.flatMap_singleton _ _).symm
    rw [List.range_succ_eq_map, List.map_cons, List.map_map, decideQuantifier_cons]
    cases hv : (condition (scopeAt 0)).outcome with
    | error f =>
      rw [Run.bind_of_error hv, hone]
      exact ⟨0, hfirst, .failed (Nat.succ_pos count) hv⟩
    | ok v =>
      rw [Run.bind_of_ok hv]
      cases hdecides : q.decides v with
      | true =>
        refine ⟨0, hfirst, ?_⟩
        rw [if_pos rfl, Run.pure_events, List.append_nil, Run.pure_outcome, hone]
        exact .decided (Nat.succ_pos count) hv hdecides
      | false =>
        -- the search goes on with one round less, whose numbers are one higher
        obtain ⟨n, hbefore, hend⟩ := ih fun j => scopeAt (j + 1)
        refine ⟨n + 1, fun j hj => ?_, hend.behind⟩
        cases j with
        | zero => exact ⟨v, hv, hdecides⟩
        | succ j => exact hbefore j (Nat.lt_of_succ_lt_succ hj)

end Rounds

/-! ## Loops in loops -/

/-- Two scopes give every name the same value. -/
def Scope.SameNames (s t : Scope) : Prop := ∀ name, s.get? name = t.get? name

/-- What is evaluated in scopes that give every name the same value is the same. -/
theorem eval_sameNames (registry : Fields) (e : Expr) : SameIn Scope.SameNames (e.eval registry) :=
  fun s t h => e.eval_agrees registry s t ⟨h _, h _, fun n _ => h n, fun _ _ => h _⟩

theorem loopScopes_singleton (scope : Scope) (d : String × List Value) :
    loopScopes scope [d] = d.2.map fun v => scope.extend (.ofPairs [(d.1, v)]) := by
  simp only [loopScopes, product, List.map_cons, List.map_nil, List.flatMap_map, List.map_flatMap]
  exact List.map_eq_flatMap.symm

/-- Pairs in a layer over that of a pair are read as the pairs behind it. -/
theorem sameNames_extend (scope : Scope) (pair : String × Value) (pairs : List (String × Value)) :
    Scope.SameNames ((scope.extend (.ofPairs [pair])).extend (.ofPairs pairs))
      (scope.extend (.ofPairs (pair :: pairs))) := by
  intro name
  have hbehind : (Fields.ofPairs (pair :: pairs)).get? name =
      ((Fields.ofPairs pairs).get? name).or ((Fields.ofPairs [pair]).get? name) := by
    simp only [Fields.get_ofPairs_reverse, List.reverse_cons, List.reverse_nil, List.nil_append,
      List.lookup_append]
  rw [Scope.get_extend, Scope.get_extend, Scope.get_extend, hbehind, Option.or_assoc]

/-- The scopes of a loop in a loop are those of one loop, but for the layers. -/
theorem loopScopes_cons (scope : Scope) (d : String × List Value) (domains : List (String × List Value)) :
    List.Forall₂ Scope.SameNames ((loopScopes scope [d]).flatMap fun t => loopScopes t domains)
      (loopScopes scope (d :: domains)) := by
  have hone : loopScopes scope (d :: domains) = d.2.flatMap fun v =>
      (product (domains.map fun d => d.2.map fun v => (d.1, v))).map fun pairs =>
        scope.extend (.ofPairs ((d.1, v) :: pairs)) := by
    simp only [loopScopes, product, List.map_cons, List.flatMap_map, List.map_flatMap, List.map_map]
    rfl
  rw [loopScopes_singleton, List.flatMap_map, hone]
  -- both lists go through the values of the first name, and for each through the same pairs
  have hvalues : List.Forall₂ (· = ·) d.2 d.2 := List.forall₂_same.2 fun _ _ => rfl
  refine List.rel_flatMap hvalues ?_
  rintro v _ rfl
  unfold loopScopes
  rw [List.forall₂_map_left_iff, List.forall₂_map_right_iff]
  exact List.forall₂_same.2 fun pairs _ => sameNames_extend scope (d.1, v) pairs

/-- Expressions that are evaluated in the same way give the same lists. -/
theorem GiveLists.of_same {registry : Fields} {scope t : Scope} {bindings : List (String × Expr)}
    {domains : List (String × List Value)} (h : GiveLists registry scope bindings domains)
    (hsame : ∀ b ∈ bindings, b.2.eval registry t = b.2.eval registry scope) :
    GiveLists registry t bindings domains := by
  induction h with
  | nil => exact .nil
  | cons hb _ ih =>
    obtain ⟨hfirst, hrest⟩ := List.forall_mem_cons.1 hsame
    exact .cons ⟨hb.1, hfirst ▸ hb.2⟩ (ih hrest)

/-- Lists that leave no calls. -/
theorem evalDomains_silent {registry : Fields} {scope : Scope} {bindings : List (String × Expr)}
    {domains : List (String × List Value)} (h : GiveLists registry scope bindings domains)
    (hcalls : ∀ b ∈ bindings, (b.2.eval registry scope).events = []) :
    Expr.evalDomains registry bindings scope = pure domains := by
  rw [evalDomains_lists h, domainEvents, List.flatMap_eq_nil_iff.2 hcalls]
  rfl

/-! ## Quantified expressions -/

namespace Expr

variable {registry : Fields} {scope : Scope} {q : Quantifier} {bindings rest : List (String × Expr)}
  {domains : List (String × List Value)} {d : String × List Value} {e condition : Expr} {name : String}

/-- The denial of a condition. -/
def denied (condition : Expr) : Expr := .choose condition (.boolean false) (some (.boolean true))

theorem eval_denied (registry : Fields) (condition : Expr) (scope : Scope) :
    condition.denied.eval registry scope = do return .boolean (!(← condition.eval registry scope).isTrue) := by
  rw [denied, eval]
  refine Run.bind_congr fun v _ => ?_
  cases v.isTrue <;> rfl

/-- A quantified expression is the opposite of the other quantifier's with the denial of its condition. -/
theorem eval_dual (registry : Fields) (scope : Scope) (q : Quantifier) (bindings : List (String × Expr))
    (condition : Expr) : (Expr.quantified q bindings condition).eval registry scope = do
      return (← (Expr.quantified q.dual bindings condition.denied).eval registry scope).opposite := by
  rw [eval, eval, bind_assoc]
  refine Run.bind_congr fun domains _ => ?_
  rw [decideQuantifier_dual (eval_denied registry condition)]
  simp [Value.opposite]

/-- What a quantified expression leaves, and how it ends, after the lists of its names. -/
theorem eval_quantified (q : Quantifier) (condition : Expr) (h : GiveLists registry scope bindings domains) :
    (Expr.quantified q bindings condition).eval registry scope =
      ⟨domainEvents registry scope bindings ++
          (decideQuantifier q (condition.eval registry) (loopScopes scope domains)).events,
        (decideQuantifier q (condition.eval registry) (loopScopes scope domains)).outcome.map .boolean⟩ := by
  rw [eval, evalDomains_lists h, Run.bind_of_ok rfl]
  cases hb : (decideQuantifier q (condition.eval registry) (loopScopes scope domains)).outcome with
  | error f =>
    rw [Run.bind_of_error hb]
    rfl
  | ok b =>
    rw [Run.bind_of_ok hb, Run.pure_events, List.append_nil]
    rfl

/-- The value of an expression in the round with a number. -/
def evalAt (registry : Fields) (scope : Scope) (domains : List (String × List Value)) (e : Expr) (j : ℕ) :
    Eval Value :=
  e.eval registry (scope.extend (.ofPairs (chosen domains j)))

/-! ## Nests -/

/-- One quantifier for each name, around a condition. -/
def nested (q : Quantifier) (condition : Expr) : List (String × Expr) → Expr
  | [] => condition
  | b :: rest => .quantified q [b] (nested q condition rest)

/-- Whether a name stands in an expression, by itself or before the first dot of a longer one. -/
def Mentions (e : Expr) (name : String) : Prop := ∃ n ∈ e.names, n = name ∨ (Scope.segments n).1 = name

instance (e : Expr) (name : String) : Decidable (e.Mentions name) :=
  inferInstanceAs (Decidable (∃ n ∈ e.names, n = name ∨ (Scope.segments n).1 = name))

/-- A new value of a name does not matter to an expression that does not mention it. -/
theorem eval_unmentioned (h : ¬ e.Mentions name) (hreport : name ≠ Scope.reportKey)
    (hinput : name ≠ Scope.inputKey) (v : Value) :
    e.eval registry (scope.extend (.ofPairs [(name, v)])) = e.eval registry scope := by
  have hother : ∀ key : String, name ≠ key →
      (scope.extend (.ofPairs [(name, v)])).get? key = scope.get? key :=
    fun key hne => Scope.get_extend_other hne.symm scope v
  exact e.eval_agrees registry _ _
    ⟨hother _ hinput, hother _ hreport, fun n hn => hother n fun heq => h ⟨n, hn, .inl heq.symm⟩,
      fun n hn => hother _ fun heq => h ⟨n, hn, .inr heq.symm⟩⟩

/-- What a nest says, as a condition: what one quantifier would say in the scopes of all its names. -/
theorem eval_nested (condition : Expr) (h : GiveLists registry scope bindings domains)
    (hcalls : ∀ b ∈ bindings, (b.2.eval registry scope).events = [])
    (hkeys : ∀ b ∈ bindings, b.1 ≠ Scope.reportKey ∧ b.1 ≠ Scope.inputKey)
    (hapart : bindings.Pairwise fun b later => ¬ later.2.Mentions b.1) :
    (do return (← (nested q condition bindings).eval registry scope).isTrue : Eval Bool) =
      decideQuantifier q (condition.eval registry) (loopScopes scope domains) := by
  induction bindings generalizing scope domains with
  | nil =>
    cases h
    -- without names there is one scope, under a layer of nothing
    have hsame : condition.eval registry (scope.extend (.ofPairs [])) = condition.eval registry scope :=
      eval_sameNames registry condition _ _ fun name => Scope.get_extend scope _ name
    have hscopes : loopScopes scope [] = [scope.extend (.ofPairs [])] := rfl
    rw [hscopes, decideQuantifier_singleton, hsame, nested]
  | cons b rest ih =>
    obtain ⟨hb, hrest⟩ := List.pairwise_cons.1 hapart
    obtain ⟨hcall, hcalls⟩ := List.forall_mem_cons.1 hcalls
    obtain ⟨⟨hreport, hinput⟩, hkeys⟩ := List.forall_mem_cons.1 hkeys
    cases h with
    | @cons _ d _ domains hd hdomains =>
      -- the lists of the other names are the same in all scopes of the first one
      have hinner : ∀ t ∈ loopScopes scope [d],
          (do return (← (nested q condition rest).eval registry t).isTrue : Eval Bool) =
            decideQuantifier q (condition.eval registry) (loopScopes t domains) := by
        intro t ht
        rw [loopScopes_singleton] at ht
        obtain ⟨v, -, rfl⟩ := List.mem_map.1 ht
        have hsame : ∀ c ∈ rest, c.2.eval registry (scope.extend (.ofPairs [(d.1, v)])) =
            c.2.eval registry scope := fun c hc => by
          rw [hd.1]
          exact eval_unmentioned (hb c hc) hreport hinput v
        refine ih (GiveLists.of_same hdomains hsame) (fun c hc => ?_) hkeys hrest
        rw [hsame c hc]
        exact hcalls c hc
      have hone : Expr.evalDomains registry [b] scope = pure [d] :=
        evalDomains_silent (.cons hd .nil) (List.forall_mem_singleton.2 hcall)
      calc _ = decideQuantifier q ((nested q condition rest).eval registry) (loopScopes scope [d]) := by
            rw [nested, eval, hone]
            simp [Value.isTrue]
        _ = decideQuantifier q (fun t => do
              return .boolean (← decideQuantifier q (condition.eval registry) (loopScopes t domains)))
              (loopScopes scope [d]) := by
            refine decideQuantifier_congr fun t ht => ?_
            rw [hinner t ht]
            simp [Value.isTrue]
        _ = decideQuantifier q (condition.eval registry)
              ((loopScopes scope [d]).flatMap fun t => loopScopes t domains) := decideQuantifier_flatMap _ _
        _ = _ := decideQuantifier_same q (eval_sameNames registry condition) (loopScopes_cons scope d domains)

/-- A quantified expression is true or false. -/
theorem eval_quantified_isTrue (registry : Fields) (scope : Scope) (q : Quantifier)
    (bindings : List (String × Expr)) (condition : Expr) :
    (Expr.quantified q bindings condition).eval registry scope = do
      return .boolean (← (Expr.quantified q bindings condition).eval registry scope).isTrue := by
  rw [eval]
  simp [Value.isTrue]

/-- **One quantifier over several names is a nest of quantifiers over one name each.** -/
theorem quantified_eq_nested (condition : Expr) (hne : bindings ≠ [])
    (h : GiveLists registry scope bindings domains)
    (hcalls : ∀ b ∈ bindings, (b.2.eval registry scope).events = [])
    (hkeys : ∀ b ∈ bindings, b.1 ≠ Scope.reportKey ∧ b.1 ≠ Scope.inputKey)
    (hapart : bindings.Pairwise fun b later => ¬ later.2.Mentions b.1) :
    (Expr.quantified q bindings condition).eval registry scope =
      (nested q condition bindings).eval registry scope := by
  have hdomains : Expr.evalDomains registry bindings scope = pure domains := evalDomains_silent h hcalls
  have hnested : (nested q condition bindings).eval registry scope = do
      return .boolean (← (nested q condition bindings).eval registry scope).isTrue := by
    cases bindings with
    | nil => exact absurd rfl hne
    | cons b rest => exact eval_quantified_isTrue registry scope q [b] (nested q condition rest)
  calc (Expr.quantified q bindings condition).eval registry scope
      = do return .boolean (← decideQuantifier q (condition.eval registry) (loopScopes scope domains)) := by
        rw [eval, hdomains, pure_bind]
    _ = do return .boolean (← (nested q condition bindings).eval registry scope).isTrue := by
        rw [← eval_nested condition h hcalls hkeys hapart, bind_assoc]
        simp only [pure_bind]
    _ = (nested q condition bindings).eval registry scope := hnested.symm

end Expr

/-- No source binds the key of the tested value. -/
theorem inputKey_notMem_binders {unary : Bool} {source : String} {t : Tree} (h : parse unary source = .ok t)
    {a : Artifact} (ha : (t.build source).outcome = .ok (some a)) : Scope.inputKey ∉ a.binders := by
  intro hmem
  obtain ⟨k, hk, hkind, htext⟩ := binders_of_parse h ha _ hmem
  -- what is bound is the text of an identifier, and none has a question mark
  obtain ⟨ls, htokens, ht⟩ := tells_of_parse h
  obtain ⟨l, hl, rfl⟩ := List.mem_map.1 (ht.leaves_sublist.subset hk)
  have hunasked : '?' ∉ l.text.toList := htokens.unasked l hl (hkind ▸ List.mem_cons_self)
  have htext : l.text = Scope.inputKey := htext
  rw [htext] at hunasked
  exact hunasked (by decide)

/-- **Quantifiers are dual, go through the combinations in order, and stop at the first that decides.** What one
quantifier says of a condition, with its calls and its failure, is the opposite of what the other says of the
denial. The lists of the names are evaluated first. Then the condition is asked for the combinations in
lexicographic order, none left out, up to the first one that decides or fails, and for none behind it. And one
quantifier over several names is the nest of quantifiers over one name each, if the lists leave no calls, none
mentions an earlier name, and no name is the key of reports. The key of the tested value, which every expression
may read, is bound by no source. -/
theorem quantifiers_search_in_order (registry : Fields) (scope : Scope) (q : Quantifier)
    (bindings : List (String × Expr)) (condition : Expr) :
    ((Expr.quantified q bindings condition).eval registry scope = do
      return (← (Expr.quantified q.dual bindings condition.denied).eval registry scope).opposite) ∧
    (∀ domains, GiveLists registry scope bindings domains →
      (∀ i j, i < j → j < rounds domains →
        List.Lex (· < ·) (digits (domains.map (·.2.length)) i) (digits (domains.map (·.2.length)) j)) ∧
      (∀ places, List.Forall₂ (· < ·) places (domains.map (·.2.length)) →
        ∃ j < rounds domains, digits (domains.map (·.2.length)) j = places) ∧
      ∃ n run, (∀ j < n, q.Passes (condition.evalAt registry scope domains j)) ∧
        SearchEnd q (condition.evalAt registry scope domains) (rounds domains) n run ∧
        (Expr.quantified q bindings condition).eval registry scope =
          ⟨domainEvents registry scope bindings ++ run.events, run.outcome.map .boolean⟩) ∧
    (∀ domains, GiveLists registry scope bindings domains → bindings ≠ [] →
      (∀ b ∈ bindings, (b.2.eval registry scope).events = []) →
      (∀ b ∈ bindings, b.1 ≠ Scope.reportKey ∧ b.1 ≠ Scope.inputKey) →
      (bindings.Pairwise fun b later => ¬ later.2.Mentions b.1) →
      (Expr.quantified q bindings condition).eval registry scope =
        (Expr.nested q condition bindings).eval registry scope) ∧
    ∀ unary source t a, parse unary source = .ok t → (t.build source).outcome = .ok (some a) →
      Scope.inputKey ∉ a.binders := by
  refine ⟨Expr.eval_dual registry scope q bindings condition, fun domains h => ⟨?_, ?_, ?_⟩,
    fun domains h hne hcalls hkeys hapart => Expr.quantified_eq_nested condition hne h hcalls hkeys hapart,
    fun unary source t a h ha => inputKey_notMem_binders h ha⟩
  · exact fun i j hij hj => digits_lex hij hj
  · exact fun places hplaces => exists_digits hplaces
  · obtain ⟨n, hbefore, hend⟩ := decideQuantifier_searches (condition.eval registry) (rounds domains)
      (q := q) fun j => scope.extend (.ofPairs (chosen domains j))
    rw [← loopScopes_rounds] at hend
    exact ⟨n, _, hbefore, hend, Expr.eval_quantified q condition h⟩

/-- Of the four combinations of two and two elements the second one decides. -/
theorem every_stops_in_second_round :
    ∃ run, SearchEnd .every ((Expr.name "y").evalAt [] ⟨[]⟩
        [("x", [.null, .null]), ("y", [.boolean true, .boolean false])]) 4 1 run ∧
      ((Expr.nested .every (.name "y")
        [("x", .list [.null, .null]), ("y", .list [.boolean true, .boolean false])]).eval [] ⟨[]⟩).outcome =
          run.outcome.map .boolean := by
  have hlists : GiveLists [] ⟨[]⟩ [("x", .list [.null, .null]), ("y", .list [.boolean true, .boolean false])]
      [("x", [.null, .null]), ("y", [.boolean true, .boolean false])] :=
    .cons ⟨rfl, rfl⟩ (.cons ⟨rfl, rfl⟩ .nil)
  obtain ⟨-, hsearch, hnest, -⟩ := quantifiers_search_in_order [] ⟨[]⟩ .every
    [("x", .list [.null, .null]), ("y", .list [.boolean true, .boolean false])] (.name "y")
  obtain ⟨-, -, n, run, hbefore, hend, heval⟩ := hsearch _ hlists
  have hfirst : ((Expr.name "y").evalAt [] ⟨[]⟩
      [("x", [.null, .null]), ("y", [.boolean true, .boolean false])] 0).outcome = .ok (.boolean true) := rfl
  have hsecond : ((Expr.name "y").evalAt [] ⟨[]⟩
      [("x", [.null, .null]), ("y", [.boolean true, .boolean false])] 1).outcome = .ok (.boolean false) := rfl
  -- the second round decides, and the first one does not
  have hle : n ≤ 1 := by
    by_contra hmany
    obtain ⟨v, hv, hpasses⟩ := hbefore 1 (Nat.lt_of_not_le hmany)
    cases hsecond.symm.trans hv
    cases hpasses
  have hpos : n ≠ 0 := by
    rintro rfl
    generalize hcount : rounds _ = count at hend
    cases hend with
    | exhausted => cases hcount
    | decided hn hv hdecides =>
      cases hfirst.symm.trans hv
      cases hdecides
    | failed hn hf => cases hfirst.symm.trans hf
  obtain rfl : n = 1 := Nat.le_antisymm hle (Nat.pos_of_ne_zero hpos)
  refine ⟨run, hend, ?_⟩
  rw [← hnest _ hlists (List.cons_ne_nil _ _) (by decide) (by decide) (by decide), heval]

/-- A condition that appends null to the list of the second name. One quantifier over both names has both lists
before it asks, and in the nest the second element of the first name meets the null. -/
theorem appending_condition_tells_nest_apart :
    let condition := "(if [l].append[1](null) = null then y != null else false)"
    let answer (source : String) := (respond .standard source [("l", .list [.whole 1])]).outcome
    ((answer ("every x in [1,2], y in l satisfies " ++ condition)).toOption.any (·.eqv (.boolean true))) = true ∧
      ((answer ("every x in [1,2] satisfies every y in l satisfies " ++ condition)).toOption.any
        (·.eqv (.boolean false))) = true := by
  decide +kernel

end Criterion

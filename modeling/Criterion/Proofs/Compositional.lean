import Criterion.Memory.Sitting
import Criterion.Proofs.Membership
import Criterion.Proofs.Splitting

/-!
# Lists of expressions are evaluated one by one

A source of some expressions with commas between them is evaluated as its expressions are by themselves, one after
the other in the context of all: it has the list of their values, or the failure of the first that fails, with the
calls up to there. Each expression knows the places of its tests in the whole source, so the values of the
expressions by themselves are moved there.

* `evaluateBehind`: the value of a source with its tests further on.
* `evaluateEach`: some sources, evaluated one after the other.
* `evaluateBehind_eq_moved`: without saved tests, nothing but the places in the values is different.
* `commaList_compositional`: **some sources in one are evaluated one after the other**, wherever the one is split
  where they meet.
-/

namespace Criterion

/-! ## Sources at other places -/

/-- A source that is one expression, and the tree of the expression. -/
def IsExpression (source : String) (t : Tree) : Prop :=
  ∃ span, parse false source = .ok (.node .expressions span [t])

/-- A source whose tokens are read as one expression is one. -/
theorem Alone.isExpression {source : String} {ls : List Lexeme} {t : Tree} (h : Alone source ls t) :
    IsExpression source t := by
  have he := Grammar.yields_expression (ls.length + 1)
  have ho : Cursor.Ordered ⟨0, ls⟩ := h.tokens.ordered
  obtain ⟨span, hread⟩ : ∃ span, (readings false ls).complete? = some (.node .expressions span [t]) :=
    ⟨_, (Reader.all?_eq_complete (Grammar.yields_expressions he) ho).trans
      (Grammar.all?_expressions he.steady (Grammar.descending_expression _ _) ho h.read)⟩
  refine ⟨span, ?_⟩
  rw [parse_eq_ok, lex_eq_iff.2 h.tokens]
  exact ⟨rfl, hread⟩

/-- The value of a source whose tests are `k` characters further on. -/
def evaluateBehind (k : ℕ) (registry : Fields) (source : String) (bindings : Fields) : Action Value := do
  let tree ← Run.ofExcept (parse false source)
  match ← Run.ofExcept (tree.build source).outcome with
  | some artifact =>
    let v ← ((artifact.moved (placesBehind k)).eval registry (.ofFields bindings)).action
    return v.single
  | none => Run.fail (.misshapenNode "expressions")

/-- The values of some sources, one after the other, each in the bindings of all. The first one stands behind `k`
characters, and two characters separate each from the next. -/
def evaluateEach (registry bindings : Fields) : ℕ → List String → Action (List Value)
  | _, [] => return []
  | k, source :: more => do
    let v ← evaluateBehind k registry source bindings
    let vs ← evaluateEach registry bindings (k + source.length + 2) more
    return v :: vs

/-- The event with the places in its arguments moved. -/
def Event.moved (ρ : ℕ ↪ ℕ) : Event → Event
  | .call arguments => .call (arguments.map (Value.moved ρ))
  | .line text => .line text

/-- The action with the places in its calls and in its value moved. -/
def Action.moved (ρ : ℕ ↪ ℕ) (r : Action Value) : Action Value :=
  ⟨r.events.map (Event.moved ρ), r.outcome.map (Value.moved ρ)⟩

section Places

variable {k : ℕ} {registry c : Fields} {source : String} {span : Option Span} {t : Tree} {us : List Tree} {e : Expr}
  {es : List Expr}

theorem action_moved (ρ : ℕ ↪ ℕ) (r : Eval Value) :
    (Eval.moved ρ (Value.moved ρ) r).action = Action.moved ρ r.action := by
  unfold Eval.action Run.mapEvents Eval.moved Action.moved
  simp only [List.map_flatMap, List.flatMap_map]
  rfl

/-- A row of trees is built into the list of what its trees are built into. -/
theorem build_expressions (span : Option Span) (h : Tree.Make source us es) :
    ((Tree.node .expressions span us).build source).outcome = .ok (some (.expr (.list es))) := by
  have hmade : ∀ site text, Rule.expressions.assemble site text (es.map .expr) = .ok (.expr (.list es)) :=
    fun _ _ => Nonterminal.assemble_list (by decide) (operands_of_exprs es)
  rw [build_node (by decide), artifacts_of_make h]
  show (Rule.expressions.assemble _ _ (es.map .expr) >>= fun a => pure (some a)) = _
  rw [hmade]
  rfl

theorem evalItems_length {scope : Scope} : ∀ {es : List Expr} {vs : List Value},
    (Expr.evalItems registry es scope).outcome = .ok vs → vs.length = es.length
  | [], _, h => by
    cases h
    rfl
  | e :: es, _, h => by
    rw [Expr.evalItems] at h
    obtain ⟨v, -, h⟩ := Run.bind_outcome_ok h
    obtain ⟨vs, hvs, h⟩ := Run.bind_outcome_ok h
    cases h
    rw [List.length_cons, List.length_cons, evalItems_length hvs]

theorem action_evalItems_cons (e : Expr) (es : List Expr) (scope : Scope) :
    (Expr.evalItems registry (e :: es) scope).action = (do
      let v ← (e.eval registry scope).action
      let vs ← (Expr.evalItems registry es scope).action
      return v :: vs) := by
  rw [Expr.evalItems, action_bind]
  simp only [action_bind, action_pure]

/-- The list of several expressions has the list of their values. -/
theorem eval_several (hes : 2 ≤ es.length) (scope : Scope) :
    (do return (← (Artifact.expr (.list es)).eval registry scope).single : Eval Value) =
      (do return .list (← Expr.evalItems registry es scope)) := by
  show (Expr.eval registry (.list es) scope >>= fun v => pure v.single) = _
  rw [Expr.eval, bind_assoc]
  refine Run.bind_congr fun vs hvs => ?_
  have hlength := evalItems_length hvs
  rw [pure_bind]
  -- a list of one value would be answered by the value
  match vs, hlength with
  | [], _ | _ :: _ :: _, _ => rfl
  | [_], hlength =>
    rw [← hlength] at hes
    exact absurd hes (Nat.not_succ_le_self 1)

theorem evaluateBehind_of_build (h : parse false source = .ok (.node .expressions span [t]))
    (ht : (t.build source).outcome = .ok (some (.expr e))) :
    evaluateBehind k registry source c = ((e.moved (placesBehind k)).eval registry (.ofFields c)).action := by
  obtain ⟨hbuild, -⟩ := build_lone span ht
  have hmoved : (Artifact.expr (.list [e])).moved (placesBehind k) = .expr (.list [e.moved (placesBehind k)]) := rfl
  unfold evaluateBehind
  rw [h, ofExcept_ok_bind, hbuild, ofExcept_ok_bind]
  simp only [hmoved]
  rw [← eval_singleton, action_bind]
  rfl

theorem evaluateBehind_of_error (h : parse false source = .ok t) {f : Failure}
    (ht : (t.build source).outcome = .error f) : evaluateBehind k registry source c = Run.fail f := by
  unfold evaluateBehind
  rw [h, ofExcept_ok_bind, ht]
  rfl

theorem evaluate_of_expression (h : parse false source = .ok (.node .expressions span [t]))
    (ht : (t.build source).outcome = .ok (some (.expr e))) :
    evaluate ⟨registry, 0⟩ source c = (e.eval registry (.ofFields c)).action :=
  evaluate_of_lone ⟨_, h, (build_lone span ht).1⟩

/-- A source that is one expression has integers that are too long, or its expression is built. -/
theorem IsExpression.build_cases (h : IsExpression source t) :
    ((∃ l ∈ t.leaves, l.TooLong) ∧ ∀ span, ((Tree.node .expressions span [t]).build source).outcome = .error .tooManyDigits) ∨
      (∀ l ∈ t.leaves, ¬ l.TooLong) ∧ ∃ e, (t.build source).outcome = .ok (some (.expr e)) := by
  obtain ⟨span, h⟩ := h
  obtain ⟨ls, halone⟩ := alone_of_parse h
  obtain ⟨hfails, hsucceeds⟩ := halone.tells.builds source halone.tokens.spelled
  by_cases hlong : ∃ l ∈ t.leaves, l.TooLong
  · exact .inl ⟨hlong, fun span => (build_lone_error span (hfails hlong)).1⟩
  · have hshort : ∀ l ∈ t.leaves, ¬ l.TooLong := fun l hl hlong' => hlong ⟨l, hl, hlong'⟩
    obtain ⟨_, hmade, e, rfl⟩ := hsucceeds hshort
    exact .inr ⟨hshort, e, hmade⟩

/-- Where the values in the registry and the context do not move, an expression with its tests elsewhere has the
moved value, the same failure and the moved calls. -/
theorem eval_moved_self {ρ : ℕ ↪ ℕ} (hregistry : registry.moved ρ = registry) (hc : c.moved ρ = c) (e : Expr) :
    (e.moved ρ).eval registry (.ofFields c) = Eval.moved ρ (Value.moved ρ) (e.eval registry (.ofFields c)) := by
  -- the keys that the expression reads
  let keys := Scope.inputKey :: e.names.flatMap fun n => [n, (Scope.segments n).1]
  have hknown : ∀ n ∈ e.names, Known keys n := fun n hn =>
    ⟨List.mem_cons_of_mem _ (List.mem_flatMap.2 ⟨n, hn, List.mem_cons_self⟩),
      List.mem_cons_of_mem _ (List.mem_flatMap.2 ⟨n, hn, List.mem_cons_of_mem _ List.mem_cons_self⟩)⟩
  have hwithin : ∀ x ∈ e.subterms, x.Within keys := Expr.within_of_names hknown fun _ => List.mem_cons_self
  have hmoved := Expr.eval_moved registry e hwithin _ _ (mirrors_of_moved hc keys)
  rwa [hregistry] at hmoved

/-- **Without saved tests, a source further on has the same value, failure and calls**, with the places of its
tests moved. -/
theorem evaluateBehind_eq_moved (h : IsExpression source t) (hregistry : (Value.context registry).probeFree = true)
    (hc : (Value.context c).probeFree = true) (k : ℕ) :
    evaluateBehind k registry source c = Action.moved (placesBehind k) (evaluate ⟨registry, 0⟩ source c) := by
  obtain ⟨span, hparse⟩ := id h
  rcases h.build_cases with ⟨-, hfail⟩ | ⟨-, e, hbuild⟩
  · rw [evaluate_of_error hparse (hfail span), evaluateBehind_of_error hparse (hfail span)]
    rfl
  rw [evaluateBehind_of_build hparse hbuild, evaluate_of_expression hparse hbuild, ← action_moved,
    eval_moved_self (Fields.moved_eq_self hregistry) (Fields.moved_eq_self hc)]

end Places

/-! ## Sources in one -/

/-- The trees of some sources in one, where the first one stands behind `k` characters. -/
def laidOut : ℕ → List (String × Tree) → List Tree
  | _, [] => []
  | k, (source, t) :: more => t.moved k :: laidOut (k + source.length + 2) more

/-- The one source of some sources. -/
def joinedSource (parts : List (String × Tree)) : String := commaList (parts.map Prod.fst)

section Parts

variable {registry c : Fields} {whole : String} {parts : List (String × Tree)}

theorem joined_of_parts (hparts : ∀ p ∈ parts, IsExpression p.1 p.2) (hne : parts ≠ []) :
    ∀ k, ∃ rows w, Joined k (parts.map Prod.fst) (laidOut k parts) rows w := by
  induction parts with
  | nil => exact absurd rfl hne
  | cons p more ih =>
    intro k
    obtain ⟨⟨span, hp⟩, hmore⟩ := List.forall_mem_cons.1 hparts
    obtain ⟨ls, halone⟩ := alone_of_parse hp
    cases more with
    | nil => exact ⟨_, _, .last halone⟩
    | cons q more =>
      obtain ⟨rows, w, hjoined⟩ := ih hmore (List.cons_ne_nil q more) (k + p.1.length + 2)
      exact ⟨_, _, .more halone hjoined⟩

/-- The tree of a source is built in a longer one into an expression that has the value of the source there. -/
theorem build_behind {source : String} {t : Tree} (h : IsExpression source t) (hshort : ∀ l ∈ t.leaves, ¬ l.TooLong)
    (before : List Char) : ∃ e,
      (∀ whole after, whole.toList = before ++ (source.toList ++ after) →
        ((t.moved before.length).build whole).outcome = .ok (some (.expr e))) ∧
      ∀ registry c, (e.eval registry (.ofFields c)).action = evaluateBehind before.length registry source c := by
  obtain ⟨span, hparse⟩ := id h
  obtain ⟨⟨l, hl, hlong⟩, -⟩ | ⟨-, e, hbuild⟩ := h.build_cases
  · exact absurd hlong (hshort l hl)
  have hinside : t.Inside source := inside_of_parse hparse (.child .self (List.mem_singleton_self _))
  refine ⟨e.moved (placesBehind before.length), fun whole after hwhole => ?_, fun registry c =>
    (evaluateBehind_of_build hparse hbuild).symm⟩
  rw [build_eq_artifact] at hbuild ⊢
  exact artifact_in_whole hwhole _ hinside hbuild

/-- **The trees of some sources are built in the one** into expressions that are evaluated as the sources are, one
after the other. -/
theorem make_laidOut (hparts : ∀ p ∈ parts, IsExpression p.1 p.2)
    (hshort : ∀ p ∈ parts, ∀ l ∈ p.2.leaves, ¬ l.TooLong) : ∀ before : List Char, parts ≠ [] →
      whole.toList = before ++ (commaList (parts.map Prod.fst)).toList →
      ∃ es, Tree.Make whole (laidOut before.length parts) es ∧ ∀ registry c,
        (Expr.evalItems registry es (.ofFields c)).action =
          evaluateEach registry c before.length (parts.map Prod.fst) := by
  induction parts with
  | nil => exact fun _ h => absurd rfl h
  | cons p more ih =>
    intro before _ hwhole
    obtain ⟨hp, hmore⟩ := List.forall_mem_cons.1 hparts
    obtain ⟨hpshort, hmoreshort⟩ := List.forall_mem_cons.1 hshort
    obtain ⟨e, hbuild, he⟩ := build_behind hp hpshort before
    cases more with
    | nil =>
      rw [List.map_singleton, commaList_singleton, ← List.append_nil p.1.toList] at hwhole
      refine ⟨_, .cons (hbuild whole [] hwhole) .nil, fun registry c => ?_⟩
      rw [action_evalItems_cons, he]
      rfl
    | cons q more =>
      rw [List.map_cons, commaList_cons (by simp)] at hwhole
      -- the next source stands behind this one, a line break and a comma
      have hbehind : whole.toList = (before ++ p.1.toList ++ ['\n', ',']) ++
          (commaList ((q :: more).map Prod.fst)).toList := by
        rw [hwhole, List.append_assoc, List.append_assoc]
        rfl
      have hlength : (before ++ p.1.toList ++ ['\n', ',']).length = before.length + p.1.length + 2 := by
        rw [List.length_append, List.length_append, String.length_toList]
        rfl
      obtain ⟨es, hmake, hes⟩ := ih hmore hmoreshort _ (List.cons_ne_nil q more) hbehind
      rw [hlength] at hmake hes
      refine ⟨_, .cons (hbuild whole _ hwhole) hmake, fun registry c => ?_⟩
      rw [action_evalItems_cons, he, hes]
      rfl

mutual

/-- The tokens of a tree that stands further on. -/
theorem leaves_behind (k : ℕ) : ∀ t : Tree, (t.moved k).leaves = t.leaves.map (Token.moved k)
  | .token _ => by rw [Tree.moved, leaves_token, leaves_token, List.map_singleton]
  | .node _ _ children => by
    rw [Tree.moved, leaves_node, leaves_node, leavesOf_behind k children]

theorem leavesOf_behind (k : ℕ) : ∀ ts : List Tree,
    Tree.leavesOf (movedTrees k ts) = (Tree.leavesOf ts).map (Token.moved k)
  | [] => by rw [movedTrees, leavesOf_nil, List.map_nil]
  | t :: rest => by
    rw [movedTrees, leavesOf_cons, leavesOf_cons, leaves_behind k t, leavesOf_behind k rest, List.map_append]

end

/-- An integer that is too long is so further on. -/
theorem tooLong_laidOut : ∀ {parts : List (String × Tree)} (k : ℕ), (∃ p ∈ parts, ∃ l ∈ p.2.leaves, l.TooLong) →
    ∃ l ∈ Tree.leavesOf (laidOut k parts), l.TooLong
  | [], _, ⟨_, hp, _⟩ => absurd hp List.not_mem_nil
  | (source, t) :: more, k, ⟨p, hp, l, hl, hlong⟩ => by
    rw [laidOut, leavesOf_cons, leaves_behind]
    rcases List.mem_cons.1 hp with rfl | hp
    · exact ⟨l.moved k, List.mem_append_left _ (List.mem_map_of_mem hl), hlong⟩
    · obtain ⟨l, hl, hlong⟩ := tooLong_laidOut (k + source.length + 2) ⟨p, hp, l, hl, hlong⟩
      exact ⟨l, List.mem_append_right _ hl, hlong⟩

theorem length_laidOut : ∀ (k : ℕ) (parts : List (String × Tree)), (laidOut k parts).length = parts.length
  | _, [] => rfl
  | k, (source, _) :: more => congrArg (· + 1) (length_laidOut (k + source.length + 2) more)

/-- A source with the trees of some sources is evaluated as they are. -/
theorem evaluate_laidOut (hparts : ∀ p ∈ parts, IsExpression p.1 p.2) (hmany : 2 ≤ parts.length) {span : Option Span}
    (h : parse false (joinedSource parts) = .ok (.node .expressions span (laidOut 0 parts)))
    (registry c : Fields) :
    ((∃ p ∈ parts, ∃ l ∈ p.2.leaves, l.TooLong) →
      evaluate ⟨registry, 0⟩ (joinedSource parts) c = Run.fail .tooManyDigits) ∧
    ((∀ p ∈ parts, ∀ l ∈ p.2.leaves, ¬ l.TooLong) →
      evaluate ⟨registry, 0⟩ (joinedSource parts) c =
        (do return .list (← evaluateEach registry c 0 (parts.map Prod.fst)))) := by
  constructor
  · intro hlong
    refine evaluate_of_error h (build_error_of_parse h ?_)
    rw [leaves_node]
    exact tooLong_laidOut 0 hlong
  · intro hshort
    have hne : parts ≠ [] := by
      rintro rfl
      exact absurd hmany (by decide)
    have hsource : (joinedSource parts).toList = [] ++ (commaList (parts.map Prod.fst)).toList := rfl
    obtain ⟨es, hmake, hes⟩ := make_laidOut hparts hshort [] hne hsource
    have hlength : 2 ≤ es.length := by
      rw [← hmake.length_eq, length_laidOut]
      exact hmany
    rw [evaluate_of_build h (build_expressions span hmake), eval_several hlength, action_bind, hes]
    rfl

/-- Whether a tree is that of one expression. -/
def Tree.isLone : Tree → Bool
  | .node .expressions _ [_] => true
  | _ => false

/-- Whether a value is a list of two. -/
def Value.isPair : Value → Bool
  | .list [_, _] => true
  | _ => false

end Parts

end Criterion

import Criterion.Proofs.Endpoints

/-!
# Comparisons, tests and memberships agree

Whether the value of a name is related to an endpoint can be asked by a comparison, by a test for the value under
`?`, and by a test behind the word `in`. All three evaluate the endpoint once and put it to the same comparison.
The first two answer with its outcome, which is true, false or null, and the third one with whether it is true.

* `Form.run`, `Form.answer`: the run of a source of a form, and its answer for an outcome.
* `Form.eval_expr`: the answer of what a source is built into.
* `Form.run_eq`: **a source of a form evaluates its endpoint and compares.**
* `operator_tests_agree`: **comparisons, tests and memberships with one operator agree.**
-/

namespace Criterion

namespace Form

/-- The run of a source of a form. -/
def run (form : Form) (registry : Fields) (source : String) (bindings : Fields) : Action Value :=
  if form.isUnary then unaryTest ⟨registry, 0⟩ source bindings false else evaluate ⟨registry, 0⟩ source bindings

/-- The answer for the outcome of a comparison: a membership holds or does not. -/
def answer : Form → Option Bool → Value
  | .membership, outcome => .boolean (outcome = some true)
  | _, outcome => .ofBool? outcome

/-- What a source of a form is built into. -/
def expr (name : String) (site : ℕ) (op : Relation) (e : Expr) : Form → Expr
  | .comparison => .relation op (.name name) e
  | .test => .test site op e
  | .membership => .member (.name name) (.test site op e)

section Values

variable {form : Form} {name symbol endpoint source : String} {registry c : Fields} {op : Relation} {o : Token}
  {t u v : Tree} {e : Expr} {x : Value} {k : ℕ} {span : Option Span}

/-- The token of an operator leaves it. -/
theorem artifacts_operator (ho : o.kind ∈ relationKinds) (hop : o.assemble = .ok (.relation op)) :
    (Tree.artifacts source [.token o]).outcome = .ok [.relation op] := by
  have hplain : ∀ k ∈ relationKinds, k.isTrivia = false := by decide
  rw [artifacts_token (hplain _ ho), hop]
  rfl

/-- **What a source of a form is built into.** -/
theorem IsTree.build (h : form.IsTree name o u v) (ho : o.kind ∈ relationKinds)
    (hop : o.assemble = .ok (.relation op)) (hu : (u.build source).outcome = .ok (some (.expr e))) :
    ∃ site, (v.build source).outcome = .ok (some (.expr (form.expr name site op e))) := by
  have hoperator : (Tree.artifacts source [.token o]).outcome = .ok [.relation op] := artifacts_operator ho hop
  have hbehind := artifacts_cons_ok hoperator (artifacts_of_build hu)
  have htest : ∀ span, ∃ site, ((Tree.node .simplePositiveUnaryTest span [.token o, u]).build source).outcome =
      .ok (some (.expr (.test site op e))) := by
    intro span
    rw [build_node (by decide), hbehind]
    exact ⟨_, rfl⟩
  cases h with
  | @comparison _ s₂ s₃ =>
    refine ⟨0, ?_⟩
    rw [build_node (by decide), artifacts_cons_ok (artifacts_name name s₂ s₃) hbehind]
    rfl
  | test => exact htest _
  | @membership _ s₂ s₃ s₄ s₅ =>
    obtain ⟨site, hmade⟩ := htest s₅
    have hword : (Tree.artifacts source [.token ⟨.keyword .inWord, "in", s₄⟩]).outcome = .ok [.text "in"] := rfl
    refine ⟨site, ?_⟩
    rw [build_node (by decide), artifacts_cons_ok (artifacts_name name s₂ s₃)
      (artifacts_cons_ok hword (artifacts_of_build hmade))]
    rfl

/-- A test answers with the outcome of its comparison, if nothing asks for reports. -/
theorem match_test (site : ℕ) (operand : Eval Value) (x : Value) :
    (Probe.relation site op operand false).match x = (do return .ofBool? (Value.compare? op x (← operand))) := by
  refine Run.bind_congr fun w _ => ?_
  cases Value.compare? op x w with
  | none => rfl
  | some b => cases b <;> rfl

/-- A value passes the only test of a list if the test answers true. -/
theorem passesAny_test (site : ℕ) (operand : Eval Value) (x : Value) :
    x.passesAny (Value.probe (.relation site op operand false)).elements =
      (do return decide (Value.compare? op x (← operand) = some true)) := by
  have helements : (Value.probe (.relation site op operand false)).elements =
    [.probe (.relation site op operand false)] := rfl
  rw [helements, Value.passesAny, Value.passesAny, Value.passes, match_test]
  simp only [bind_assoc, pure_bind]
  refine Run.bind_congr fun w _ => ?_
  cases Value.compare? op x w with
  | none => rfl
  | some b => cases b <;> rfl

/-- The verdict of a test alone is the answer of the tests. -/
theorem eval_test (site : ℕ) (operand : Expr) (scope : Scope) (x : Value) (hreports : scope.reports = false) :
    (⟨false, [.list [.test site op operand]]⟩ : UnaryTests).eval registry scope x =
      (do return .ofBool? (Value.compare? op x (← operand.eval registry scope))) := by
  have hverdict : x.verdictOn (.probe (.relation site op (operand.eval registry scope) false)) =
      (do return .ofBool? (Value.compare? op x (← operand.eval registry scope))) := match_test site _ x
  rw [UnaryTests.eval_list]
  simp only [Expr.evalItems, Expr.eval, hreports, List.mapM_cons, List.mapM_nil, hverdict, bind_assoc, pure_bind]
  refine Run.bind_congr fun w _ => ?_
  cases Value.compare? op x w <;> rfl

/-- **The run of a tree of a form.** -/
theorem run_of_build (h : parse form.isUnary source = .ok (form.root span v))
    (hv : (v.build source).outcome = .ok (some (.expr (form.expr name k op e))))
    (hname : resolveName registry (.ofFields c) name = x) (hinput : c.get? Scope.inputKey = some x)
    (hkey : c.get? Scope.reportKey = none) :
    form.run registry source c =
      (do return form.answer (Value.compare? op x (← e.eval registry (.ofFields c))) : Eval Value).action := by
  have hreports := reports_ofFields hkey
  have heval : (Expr.name name).eval registry (.ofFields c) = pure x := by rw [Expr.eval, hname]
  cases form with
  | comparison =>
    refine (evaluate_of_expression h hv).trans (congrArg _ ?_)
    rw [expr, Expr.eval, heval, pure_bind, hreports]
    exact match_test 0 _ x
  | test =>
    have hget : (Scope.ofFields c).get Scope.inputKey = x := by
      unfold Scope.get
      rw [get_ofFields, hinput]
      rfl
    refine (unaryTest_of_build h (build_lone span hv).2).trans (congrArg _ ?_)
    rw [hget]
    exact eval_test k e _ x hreports
  | membership =>
    refine (evaluate_of_expression h hv).trans (congrArg _ ?_)
    rw [expr, Expr.eval, heval, pure_bind, Expr.eval, pure_bind, hreports, passesAny_test, bind_assoc]
    refine Run.bind_congr fun w _ => ?_
    rw [pure_bind]
    cases Value.compare? op x w with
    | none => rfl
    | some b => cases b <;> rfl

end Values

section Sources

variable {form : Form} {name symbol endpoint source : String} {registry c : Fields} {op : Relation} {o : Token}
  {t u v : Tree} {x : Value} {k : ℕ} {span : Option Span}

/-- The tokens of the endpoint are among those of a source. -/
theorem IsTree.leaves (h : form.IsTree name o u v) {l : Token} (hl : l ∈ u.leaves) :
    l ∈ (form.root span v).leaves := by
  cases h <;> simp [root, isUnary, leaves_node, leavesOf_cons, hl]

/-- Where building fails, so does the run. -/
theorem run_of_error {f : Failure} (h : parse form.isUnary source = .ok t)
    (ht : (t.build source).outcome = .error f) : form.run registry source c = Run.fail f := by
  cases form with
  | test => exact unaryTest_of_error h ht
  | comparison | membership => exact evaluate_of_error h ht

/-- **A source of a form evaluates its endpoint and compares.** It is accepted, and it fails exactly if the
endpoint does. -/
theorem IsSource.run_eq (h : form.IsSource name symbol endpoint source k) (hname : Lexer.IsName name)
    (hsymbol : Relation.ofText? symbol = some op) (hendpoint : IsEndpoint endpoint)
    (hx : resolveName registry (.ofFields c) name = x) (hinput : c.get? Scope.inputKey = some x)
    (hkey : c.get? Scope.reportKey = none) :
    (∃ t, parse form.isUnary source = .ok t) ∧ form.run registry source c =
      (do return form.answer (Value.compare? op x (← evaluateBehind k registry endpoint c))) := by
  obtain ⟨ls, t, ht⟩ := hendpoint.exists_endpoint
  have hexpression : IsExpression endpoint t := ht.alone.isExpression
  obtain ⟨span, o, v, hparse, ho, hop, hv⟩ := h.reads hname hsymbol ht
  refine ⟨⟨_, hparse⟩, ?_⟩
  rcases hexpression.build_cases with ⟨⟨l, hl, hlong⟩, hfail⟩ | ⟨hshort, -⟩
  · have hmoved : l.moved k ∈ (t.moved k).leaves := by
      rw [leaves_behind]
      exact List.mem_map_of_mem hl
    obtain ⟨span', hexpression⟩ := hexpression
    rw [run_of_error hparse (build_error_of_parse hparse ⟨_, hv.leaves hmoved, hlong⟩),
      evaluateBehind_of_error hexpression (hfail span')]
    rfl
  · obtain ⟨front, -, hsource, rfl⟩ := h
    have hlength : (front ++ symbol.toList).length = front.length + symbol.length := by
      rw [List.length_append, String.length_toList]
    obtain ⟨e, hbuild, heval⟩ := build_behind hexpression hshort (front ++ symbol.toList)
    rw [hlength] at hbuild heval
    have hu := hbuild source [] (by rw [hsource, List.append_nil, List.append_assoc])
    obtain ⟨site, hmade⟩ := hv.build ho hop hu
    rw [run_of_build hparse hmade hx hinput hkey, action_bind, heval]
    rfl

end Sources

end Form

end Criterion

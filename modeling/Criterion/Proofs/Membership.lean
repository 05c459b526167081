import Criterion.Proofs.Excerpts
import Criterion.Proofs.Inclusion
import Criterion.Proofs.Shadowing

/-!
# Membership in tests

The value of a name is in a list of tests if it passes one of them, and the tests alone decide on the same
value as tests of a source. Both agree for tests by comparison, intervals, numbers and texts, but for one kind
of pair: a boolean equals a number by its numeric value, and as tested values the two are of different kinds.

* `Tree.Yields`: the values that such tests have.
* `passes_of_verdict`, `passesAny_of_verdicts`: one test and a list of tests, by both of the matchers.
* `Tree.IsMembership.build`, `evaluate_membership`: what a membership is built into, and its answer.
* `membership_agrees`: **a name's value is in a list of tests if and only if the tests alone accept it**, or it
  is a boolean and one of the tests is the number that it equals.
-/

namespace Criterion

section Tests

variable {source : String} {registry : Fields} {scope : Scope} {u : Tree} {us : List Tree} {e : Expr}
  {es : List Expr} {v w o : Value} {ws os : List Value}

/-! ## The values of tests -/

/-- The values that plain tests have, where nothing asks for reports: a probe, and the number or the text
that is written there. -/
inductive Tree.Yields : Tree → Value → Prop where
  | probe {rule : Rule} {span : Option Span} {children : List Tree} {p : Probe Value} : p.reports = false →
    Yields (.node rule span children) (.probe p)
  | number {k : Token} {n : Number} : k.assemble = .ok (.expr (.number n)) → Yields (.token k) (.number n)
  | text {k : Token} {s : String} : k.assemble = .ok (.expr (.text s)) → Yields (.token k) (.text s)

/-- A node that is built into an expression is so by its rule. -/
theorem node_made {rule : Rule} (hrule : rule ≠ .ambiguous) {span : Option Span} {children : List Tree}
    (hexpr : ∀ site text parts, rule.artifact? site text parts = (rule.expr? site text parts).map .expr)
    (h : ((Tree.node rule span children).build source).outcome = .ok (some (.expr e))) :
    ∃ site text parts, rule.expr? site text parts = some e := by
  obtain ⟨parts, made, -, hmade, hsingle⟩ := assemble_of_artifacts hrule (artifacts_of_build h)
  obtain rfl := List.singleton_inj.1 hsingle
  have hartifact := Nonterminal.artifact_of_assemble hmade
  rw [hexpr] at hartifact
  obtain ⟨_, he, hsame⟩ := Option.map_eq_some_iff.1 hartifact
  cases hsame
  exact ⟨_, _, parts, he⟩

/-- A test by comparison is built into one. -/
theorem comparison_made {span : Option Span} {children : List Tree}
    (h : ((Tree.node .simplePositiveUnaryTest span children).build source).outcome = .ok (some (.expr e))) :
    ∃ site op operand, e = .test site op operand := by
  obtain ⟨site, text, parts, he⟩ := node_made (by decide) (fun _ _ _ => rfl) h
  unfold Rule.expr? at he
  split at he
  all_goals try contradiction
  obtain ⟨operand, -, he⟩ := Option.bind_eq_some_iff.1 he
  cases he
  exact ⟨_, _, _, rfl⟩

/-- An interval is built into one. -/
theorem interval_made {span : Option Span} {children : List Tree}
    (h : ((Tree.node .interval span children).build source).outcome = .ok (some (.expr e))) :
    ∃ site includesStart start stop includesStop, e = .interval site includesStart start stop includesStop := by
  obtain ⟨site, text, parts, he⟩ := node_made (by decide) (fun _ _ _ => rfl) h
  unfold Rule.expr? at he
  split at he
  all_goals try contradiction
  obtain ⟨start, -, he⟩ := Option.bind_eq_some_iff.1 he
  obtain ⟨stop, -, he⟩ := Option.bind_eq_some_iff.1 he
  cases he
  exact ⟨_, _, _, _, _, rfl⟩

/-- The token of a number or a text is built into what it stands for. -/
theorem token_made {k : Token} (hk : k.kind = .number ∨ k.kind = .string)
    (h : ((Tree.token k).build source).outcome = .ok (some (.expr e))) :
    k.assemble = .ok (.expr e) ∧ ((∃ n, e = .number n) ∨ ∃ s, e = .text s) := by
  have htrivia : k.kind.isTrivia = false := by rcases hk with hk | hk <;> rw [hk] <;> rfl
  have hmade := artifacts_of_build h
  rw [artifacts_token htrivia] at hmade
  have hassemble : k.assemble = .ok (.expr e) := by
    cases ha : k.assemble with
    | error f =>
      rw [ha] at hmade
      cases hmade
    | ok a =>
      rw [ha] at hmade
      cases hmade
      rfl
  refine ⟨hassemble, ?_⟩
  unfold Token.assemble at hassemble
  rcases hk with hk | hk
  · rw [hk] at hassemble
    dsimp only at hassemble
    unfold numberLiteral at hassemble
    dsimp only at hassemble
    split at hassemble
    · cases hassemble
      exact .inl ⟨_, rfl⟩
    · cases hassemble
  · rw [hk] at hassemble
    cases hassemble
    exact .inr ⟨_, rfl⟩

/-- **The value of a plain test.** -/
theorem value_of_test (hu : u.isPlainTest = true) (hmade : (u.build source).outcome = .ok (some (.expr e)))
    (hreports : scope.reports = false) (hw : (e.eval registry scope).outcome = .ok w) : u.Yields w := by
  unfold Tree.isPlainTest at hu
  split at hu
  · obtain ⟨site, op, operand, rfl⟩ := comparison_made hmade
    rw [Expr.eval] at hw
    cases hw
    exact .probe hreports
  · obtain ⟨site, includesStart, start, stop, includesStop, rfl⟩ := interval_made hmade
    rw [Expr.eval] at hw
    obtain ⟨low, -, hw⟩ := Run.bind_outcome_ok hw
    obtain ⟨high, -, hw⟩ := Run.bind_outcome_ok hw
    cases hw
    exact .probe hreports
  · obtain ⟨hassemble, ⟨n, rfl⟩ | ⟨s, rfl⟩⟩ := token_made (of_decide_eq_true hu) hmade
    · rw [Expr.eval] at hw
      cases hw
      exact .number hassemble
    · rw [Expr.eval] at hw
      cases hw
      exact .text hassemble
  · cases hu

/-- The values of plain tests, one by one. -/
theorem values_of_tests (hmake : Tree.Make source us es) (hplain : ∀ u ∈ us, u.isPlainTest = true)
    (hreports : scope.reports = false) (hws : (Expr.evalItems registry es scope).outcome = .ok ws) :
    List.Forall₂ Tree.Yields us ws := by
  induction hmake generalizing ws with
  | nil =>
    cases hws
    exact .nil
  | cons hu _ ih =>
    obtain ⟨huplain, hplain⟩ := List.forall_mem_cons.1 hplain
    rw [Expr.evalItems] at hws
    obtain ⟨w, hw, hws⟩ := Run.bind_outcome_ok hws
    obtain ⟨rest, hrest, hws⟩ := Run.bind_outcome_ok hws
    cases hws
    exact .cons (value_of_test huplain hu hreports hw) (ih hplain hrest)

/-- The values of plain tests are no lists. -/
theorem isList_of_values (h : List.Forall₂ Tree.Yields us ws) : ∀ w ∈ ws, w.isList = false := by
  induction h with
  | nil => exact List.forall_mem_nil _
  | cons hu _ ih =>
    refine List.forall_mem_cons.2 ⟨?_, ih⟩
    cases hu <;> rfl

/-- The numbers among the values of tests are those that are written as tests. -/
theorem number_mem_values {n : Number} (h : List.Forall₂ Tree.Yields us ws) :
    .number n ∈ ws ↔ ∃ k, .token k ∈ us ∧ k.assemble = .ok (.expr (.number n)) := by
  induction h with
  | nil => simp
  | @cons u w us ws hu _ ih =>
    have hfirst : .number n = w ↔ ∃ k, .token k = u ∧ k.assemble = .ok (.expr (.number n)) := by
      constructor
      · rintro rfl
        cases hu with
        | number hk => exact ⟨_, rfl, hk⟩
      · rintro ⟨k, rfl, hk⟩
        cases hu with
        | number hk' =>
          cases hk.symm.trans hk'
          rfl
        | text hk' => cases hk.symm.trans hk'
    simp only [List.mem_cons, or_and_right, exists_or, ih, hfirst]

/-! ## Both matchers -/

/-- A number or a text equals a value of another kind only if this is a boolean of the same numeric value. -/
theorem eqv_of_other_kind (hw : (∃ n, w = .number n) ∨ ∃ s, w = .text s) (hkind : w.kind ≠ v.kind) :
    w.eqv v = true ↔ ∃ x n, v = .boolean x ∧ w = .number n ∧ n.eqv (.ofBool x) = true := by
  rcases hw with ⟨n, rfl⟩ | ⟨s, rfl⟩
  · cases v with
    | number m => exact absurd rfl hkind
    | _ => simp [Value.eqv]
  · cases v with
    | text t => exact absurd rfl hkind
    | _ => simp [Value.eqv]

/-- A number or a text, by both matchers. -/
theorem passes_of_literal (hw : (∃ n, w = .number n) ∨ ∃ s, w = .text s)
    (ho : (v.verdictOn w).outcome = .ok o) :
    (∃ d : Option Bool, o = .ofBool? d) ∧ ∃ b, (v.passes w).outcome = .ok b ∧
      (b = true ↔ o.affirms = true ∨ ∃ x n, v = .boolean x ∧ w = .number n ∧ n.eqv (.ofBool x) = true) := by
  have hpasses : (v.passes w).outcome = .ok (w.eqv v) := by
    rcases hw with ⟨n, rfl⟩ | ⟨s, rfl⟩ <;> rfl
  have hverdict : o = if w.kind = v.kind then .boolean (w.eqv v) else .null := by
    rcases hw with ⟨n, rfl⟩ | ⟨s, rfl⟩ <;> cases ho <;> rfl
  by_cases hkind : w.kind = v.kind
  · rw [if_pos hkind] at hverdict
    subst hverdict
    refine ⟨⟨some _, rfl⟩, _, hpasses, .inl, fun h => h.elim id ?_⟩
    -- values of one kind are no boolean and a number
    rintro ⟨x, n, rfl, rfl, -⟩
    cases hkind
  · rw [if_neg hkind] at hverdict
    subst hverdict
    refine ⟨⟨none, rfl⟩, _, hpasses, ?_⟩
    rw [eqv_of_other_kind hw hkind]
    exact ⟨.inr, fun h => h.resolve_left (by simp [Value.affirms])⟩

/-- **One test, by both matchers.** A value passes a test if the test affirms it, and a boolean also passes the
number that it equals. -/
theorem passes_of_verdict (hw : u.Yields w) (ho : (v.verdictOn w).outcome = .ok o) :
    (∃ d : Option Bool, o = .ofBool? d) ∧ ∃ b, (v.passes w).outcome = .ok b ∧
      (b = true ↔ o.affirms = true ∨ ∃ x n, v = .boolean x ∧ w = .number n ∧ n.eqv (.ofBool x) = true) := by
  cases hw with
  | @probe _ _ _ p hp =>
    obtain ⟨d, rfl⟩ := match_quiet hp ho
    have hpasses : (v.passes (.probe p)).outcome = .ok (Value.ofBool? d).isNonzero := by
      have hmatch : (p.match v).outcome = .ok (.ofBool? d) := ho
      show (p.match v >>= fun w => pure w.isNonzero).outcome = _
      rw [Run.bind_of_ok hmatch]
      rfl
    refine ⟨⟨d, rfl⟩, _, hpasses, ?_⟩
    rw [affirms_ofBool]
    exact ⟨.inl, fun h => h.resolve_right (by rintro ⟨x, n, -, hprobe, -⟩; cases hprobe)⟩
  | @number k n hk => exact passes_of_literal (.inl ⟨n, rfl⟩) ho
  | @text k s hk => exact passes_of_literal (.inr ⟨s, rfl⟩) ho

/-- **A list of tests, by both matchers.** -/
theorem passesAny_of_verdicts (hws : List.Forall₂ Tree.Yields us ws)
    (hos : (ws.mapM v.verdictOn).outcome = .ok os) :
    (∀ o ∈ os, ∃ d : Option Bool, o = .ofBool? d) ∧ ∃ b, (v.passesAny ws).outcome = .ok b ∧
      (b = true ↔ os.any Value.affirms = true ∨
        ∃ x n, v = .boolean x ∧ .number n ∈ ws ∧ n.eqv (.ofBool x) = true) := by
  induction hws generalizing os with
  | nil =>
    cases hos
    exact ⟨List.forall_mem_nil _, false, rfl, by simp⟩
  | @cons u w us ws hw _ ih =>
    rw [List.mapM_cons] at hos
    obtain ⟨o, ho, hos⟩ := Run.bind_outcome_ok hos
    obtain ⟨rest, hrest, hos⟩ := Run.bind_outcome_ok hos
    cases hos
    obtain ⟨hfirst, b, hpasses, hb⟩ := passes_of_verdict hw ho
    obtain ⟨hothers, b', hpasses', hb'⟩ := ih hrest
    -- the tests behind one that is passed are not tried
    have hany : (v.passesAny (w :: ws)).outcome = .ok (b || b') := by
      rw [Value.passesAny, Run.bind_of_ok hpasses]
      cases b with
      | true => rfl
      | false => exact hpasses'
    refine ⟨List.forall_mem_cons.2 ⟨hfirst, hothers⟩, _, hany, ?_⟩
    rw [Bool.or_eq_true, hb, hb', List.any_cons, Bool.or_eq_true]
    simp only [List.mem_cons]
    grind

/-- A list of tests accepts a value if one of them affirms it. -/
theorem decision_eq_true (os : List Value) :
    decision os = .boolean true ↔ os.any Value.affirms = true := by
  unfold decision
  split
  · rename_i hany
    exact ⟨fun _ => hany, fun _ => rfl⟩
  · rename_i hnone
    refine ⟨fun hlast => ?_, fun hany => absurd hany hnone⟩
    cases hos' : os.getLast? with
    | none =>
      rw [hos'] at hlast
      cases hlast
    | some o =>
      rw [hos'] at hlast
      obtain rfl : o = .boolean true := hlast
      exact List.any_eq_true.2 ⟨_, List.mem_of_getLast? hos', rfl⟩

/-- **The answer of plain tests alone**, and whether the value passes one of theirs. -/
theorem tests_answer {ts : UnaryTests} (hlists : ts.Lists false es) (hmake : Tree.Make source us es)
    (hplain : ∀ u ∈ us, u.isPlainTest = true) (hreports : scope.reports = false)
    (hw : (ts.eval registry scope v).outcome = .ok w) :
    ∃ ws b, (Expr.evalItems registry es scope).outcome = .ok ws ∧ List.Forall₂ Tree.Yields us ws ∧
      (v.passesAny ws).outcome = .ok b ∧ (b = true ↔ w = .boolean true ∨
        ∃ x n, v = .boolean x ∧ .number n ∈ ws ∧ n.eqv (.ofBool x) = true) := by
  cases hlists with
  | list =>
    rw [UnaryTests.eval_list] at hw
    obtain ⟨ws, hws, hw⟩ := Run.bind_outcome_ok hw
    obtain ⟨os, hos, hw⟩ := Run.bind_outcome_ok hw
    have hyields := values_of_tests hmake hplain hreports hws
    obtain ⟨hverdicts, b, hpasses, hb⟩ := passesAny_of_verdicts hyields hos
    rw [(settle_eq_decision false hverdicts).1] at hw
    cases hw
    refine ⟨ws, b, hws, hyields, hpasses, ?_⟩
    rw [hb, if_neg Bool.false_ne_true, decision_eq_true]
  | wildcard =>
    -- the lone minus sign is no plain test
    have hws : (Expr.evalItems registry [.wildcard] scope).outcome = .ok [.boolean true] := rfl
    have hyields := values_of_tests hmake hplain hreports hws
    cases hyields with
    | cons hu _ => cases hu

/-! ## The membership of a name's value -/

/-- The token of a parenthesis leaves its text. -/
theorem artifacts_parenthesis {k : Token} (hk : k.kind = .leftParen ∨ k.kind = .rightParen) :
    (Tree.artifacts source [.token k]).outcome = .ok [.text k.text] := by
  have htrivia : k.kind.isTrivia = false := by rcases hk with hk | hk <;> rw [hk] <;> rfl
  have hassemble : k.assemble = .ok (.text k.text) := by
    unfold Token.assemble
    rcases hk with hk | hk <;> rw [hk]
  rw [artifacts_token htrivia, hassemble]
  rfl

/-- A name alone leaves its expression. -/
theorem artifacts_name (name : String) (s s' : Option Span) :
    (Tree.artifacts source [.node .qualifiedName s [.token ⟨.identifier, name, s'⟩]]).outcome =
      .ok [.expr (.name name)] := by
  have hparts : (Tree.artifacts source [.token ⟨.identifier, name, s'⟩]).outcome = .ok [.text name] := rfl
  refine artifacts_node_ok (by decide) hparts fun site text => ?_
  have hsingle := assemble_qualified site text [name]
  rwa [String.intercalate_singleton] at hsingle

/-- A comparison with some tests behind its word is a membership by itself. -/
theorem build_comparison {name : String} {s₁ s₂ s₃ s₄ s₅ : Option Span} {behind : List Tree}
    {parts : List Artifact} {tests : Expr} (hbehind : (Tree.artifacts source behind).outcome = .ok parts)
    (hmember : Rule.comparison? (.expr (.name name) :: .text "in" :: parts) =
      some (.member (.name name) tests)) :
    ((Tree.node .expressions s₁ [.node .comparison s₂
      (.node .qualifiedName s₃ [.token ⟨.identifier, name, s₄⟩] ::
        .token ⟨.keyword .inWord, "in", s₅⟩ :: behind)]).build source).outcome =
      .ok (some (.expr (.list [.member (.name name) tests]))) := by
  have hword : (Tree.artifacts source [.token ⟨.keyword .inWord, "in", s₅⟩]).outcome = .ok [.text "in"] := rfl
  have hparts := artifacts_cons_ok (artifacts_name name s₃ s₄) (artifacts_cons_ok hword hbehind)
  have hcomparison : (Tree.artifacts source [.node .comparison s₂ _]).outcome =
      .ok [.expr (.member (.name name) tests)] :=
    artifacts_node_ok (by decide) hparts fun site text =>
      Nonterminal.assemble_of_artifact (congrArg (Option.map Artifact.expr) hmember)
  rw [build_node (by decide), hcomparison]
  rfl

/-- A membership is built into a test of the name's value: against the list of the tests, or against the only
one. -/
theorem Tree.IsMembership.build {name : String} {q : Tree} (h : q.IsMembership name us)
    (hmake : Tree.Make source us es) :
    ∃ tests, (tests = .list es ∨ es = [tests]) ∧
      (q.build source).outcome = .ok (some (.expr (.list [.member (.name name) tests]))) := by
  cases h with
  | @listed s₁ s₂ s₃ s₄ s₅ s₆ opening closing hopening hclosing =>
    have hbehind := artifacts_cons_ok (artifacts_parenthesis (.inl hopening))
      (artifacts_cons_ok (artifacts_positiveTests s₆ hmake) (artifacts_parenthesis (.inr hclosing)))
    exact ⟨.list es, .inl rfl, build_comparison hbehind rfl⟩
  | @single s₁ s₂ s₃ s₄ s₅ s₆ u hu =>
    subst hu
    obtain ⟨e, _, hmade, hnil, rfl⟩ := List.forall₂_cons_left_iff.1 hmake
    cases hnil
    have hbehind : (Tree.artifacts source [.node .parenthesizedExpression s₆ [u]]).outcome = .ok [.expr e] :=
      artifacts_node_ok (by decide) (artifacts_of_build hmade) fun _ _ => rfl
    exact ⟨e, .inr rfl, build_comparison hbehind rfl⟩

/-- **The answer of a membership** is whether the name's value passes one of the tests. -/
theorem evaluate_membership {name : String} {q : Tree} {c : Fields} {b : Bool}
    (hq : parse false source = .ok q) (h : q.IsMembership name us) (hmake : Tree.Make source us es)
    (hreports : (Scope.ofFields c).reports = false)
    (hws : (Expr.evalItems registry es (.ofFields c)).outcome = .ok ws) (hlists : ∀ w ∈ ws, w.isList = false)
    (hpasses : ((resolveName registry (.ofFields c) name).passesAny ws).outcome = .ok b) :
    (evaluate ⟨registry, 0⟩ source c).outcome = .ok (.boolean b) := by
  obtain ⟨tests, htests, hbuild⟩ := h.build hmake
  -- the only one of some tests is no list, so the value is matched against it
  obtain ⟨t, ht, helements⟩ : ∃ t, (tests.eval registry (.ofFields c)).outcome = .ok t ∧ t.elements = ws := by
    rcases htests with rfl | rfl
    · refine ⟨.list ws, ?_, rfl⟩
      rw [Expr.eval, Run.bind_of_ok hws]
      rfl
    · rw [Expr.evalItems] at hws
      obtain ⟨w, hw, hws⟩ := Run.bind_outcome_ok hws
      obtain ⟨_, hnil, hws⟩ := Run.bind_outcome_ok hws
      cases hnil
      cases hws
      refine ⟨w, hw, ?_⟩
      have hlist := hlists w List.mem_cons_self
      cases w with
      | list => cases hlist
      | _ => rfl
  have hmember : (Expr.eval registry (.member (.name name) tests) (.ofFields c)).outcome =
      .ok (.boolean b) := by
    have hname : Expr.eval registry (.name name) (.ofFields c) =
        pure (resolveName registry (.ofFields c) name) := by rw [Expr.eval]
    rw [Expr.eval, hname, pure_bind, Run.bind_of_ok ht, helements, Run.bind_of_ok hpasses, hreports]
    cases b <;> rfl
  have hanswer : ((do return (← (Artifact.expr (.list [.member (.name name) tests])).eval registry
      (.ofFields c)).single) : Eval Value).outcome = .ok (.boolean b) := by
    show (Expr.eval registry (.list [.member (.name name) tests]) (.ofFields c) >>=
      fun v => pure v.single).outcome = _
    rw [Expr.eval, Expr.evalItems, Expr.evalItems]
    simp only [Run.bind_of_ok hmember]
    rfl
  rw [evaluate_of_build hq hbuild]
  exact hanswer

/-- The parts of a tree that comes of some tokens of a source stand there. -/
theorem Tree.ComesOf.span_of_isPart {unary : Bool} {ls w : List Lexeme} {t : Tree}
    (htokens : Tokens unary 0 source.toList ls) (hw : w <:+: ls) (h : t.ComesOf w) (hu : t.IsPart u) :
    ∃ s, u.span = some s ∧ s.start < s.stop ∧ s.stop ≤ source.length := by
  obtain ⟨v, hv, hcomes⟩ := h.of_isPart hu
  obtain ⟨s, hexact⟩ := hcomes.exact htokens (hv.trans hw)
  exact ⟨s, hexact.span, hexact.proper⟩

/-- All parts of the tree of a source stand inside the source. -/
theorem inside_of_parse {unary : Bool} {t : Tree} (h : parse unary source = .ok t) (hu : t.IsPart u) :
    u.Inside source := by
  intro x hx
  obtain ⟨ls, htokens, ht⟩ := tells_of_parse h
  obtain ⟨w, hw, hcomes⟩ := (comesOf_of_tells ht).of_isPart hu
  obtain ⟨s, hs, -, hstop⟩ := hcomes.span_of_isPart htokens hw hx
  exact ⟨s, hs, hstop⟩

/-- The tests of a tree are parts of it. -/
theorem isPart_of_tests {t : Tree} {negated : Bool} (h : t.tests? = some (negated, us)) (hu : u ∈ us) :
    t.IsPart u := by
  unfold Tree.tests? at h
  split at h
  · cases h
    exact .child (.child .self (List.mem_singleton_self _)) hu
  · cases h
    exact .child (.child .self (List.mem_cons_of_mem _ (List.mem_cons_of_mem _ List.mem_cons_self))) hu
  · cases h
    rw [List.mem_singleton.1 hu]
    exact .child .self (List.mem_singleton_self _)
  · cases h

end Tests

/-! ## Agreement -/

section Agreement

variable {unary : Bool} {registry c : Fields} {source : String} {t : Tree} {us : List Tree} {es : List Expr}
  {ts : UnaryTests} {v : Value} {ws : List Value}

/-- Tests of a source stand in a membership, too, further on. -/
theorem make_in_membership (ht : parse unary source = .ok t) (hus : ∀ u ∈ us, t.IsPart u)
    (hmake : Tree.Make source us es) (name : String) :
    Tree.Make (membership name source) (us.map (Tree.moved (name.length + 5)))
      (es.map (Expr.moved (placesBehind (name.length + 5)))) := by
  have hwhole : (membership name source).toList =
      (name.toList ++ [' ', 'i', 'n', ' ', '(']) ++ (source.toList ++ [')']) := by
    rw [membership_toList]
    simp
  have hlength : (name.toList ++ [' ', 'i', 'n', ' ', '(']).length = name.length + 5 := by
    rw [List.length_append, String.length_toList]
    rfl
  have hmoved := make_moved hwhole (fun u hu => inside_of_parse ht (hus u hu)) hmake
  rwa [hlength] at hmoved

/-- Without probes, the values that a source's names have do not move, whatever value is under `?`. -/
theorem mirrors_of_parse (ht : parse unary source = .ok t) (hc : (Value.context c).probeFree = true)
    (ρ : ℕ ↪ ℕ) (v : Value) :
    Scope.Mirrors ρ t.keys (.ofFields (c.put Scope.inputKey v)) (.ofFields c) := by
  intro k hk
  have hother : k ≠ Scope.inputKey := by
    rintro rfl
    rcases List.mem_cons.1 hk with hreport | hkey
    · exact absurd hreport (by decide)
    · exact inputKey_notMem_keys ht hkey
  rw [get_ofFields, get_ofFields, Fields.get_put, if_neg hother, ← Fields.get_moved, Fields.moved_eq_self hc]

/-- What stands in the expressions of tests stands in the tests. -/
theorem UnaryTests.Lists.subterms {negated : Bool} (h : ts.Lists negated es) {x : Expr}
    (hx : x ∈ Expr.subtermsOfItems es) : ∃ e ∈ ts.tests, x ∈ e.subterms := by
  cases h with
  | list => exact ⟨_, List.mem_cons_self, List.mem_cons_of_mem _ hx⟩
  | wildcard =>
    obtain ⟨e, he, hx⟩ := Expr.mem_subtermsOfItems.1 hx
    exact ⟨e, he, hx⟩

/-- **Moved tests have the moved values** without the tested value, if they do not name it. -/
theorem values_without_input (ht : parse true source = .ok t) (hinput : ¬ t.Mentions)
    (hbuild : (t.build source).outcome = .ok (some (.tests ts))) {negated : Bool} (hlists : ts.Lists negated es)
    (hregistry : (Value.context registry).probeFree = true) (hc : (Value.context c).probeFree = true)
    (ρ : ℕ ↪ ℕ) (hws : (Expr.evalItems registry es (.ofFields (c.put Scope.inputKey v))).outcome = .ok ws) :
    (Expr.evalItems registry (es.map (Expr.moved ρ)) (.ofFields c)).outcome = .ok (ws.map (Value.moved ρ)) := by
  have hwithin := within_of_parse ht hbuild (fun _ hk => hk) fun hmentions => absurd hmentions hinput
  have hitems : ∀ x ∈ Expr.subtermsOfItems es, x.Within t.keys := by
    intro x hx
    obtain ⟨e, he, hx⟩ := hlists.subterms hx
    exact hwithin e he x hx
  have hmoved := Expr.evalItems_moved registry es hitems _ _ (mirrors_of_parse ht hc ρ v)
  rw [Fields.moved_eq_self hregistry, Expr.movedItems_eq] at hmoved
  rw [hmoved]
  show (Expr.evalItems registry es _).outcome.map _ = _
  rw [hws]
  rfl

/-- A context that does not move mirrors itself. -/
theorem mirrors_of_moved {ρ : ℕ ↪ ℕ} (hc : c.moved ρ = c) (keys : List String) :
    Scope.Mirrors ρ keys (.ofFields c) (.ofFields c) := by
  intro k _
  rw [get_ofFields, ← Fields.get_moved, hc]

/-- Without probes, a context mirrors itself. -/
theorem mirrors_self (hc : (Value.context c).probeFree = true) (ρ : ℕ ↪ ℕ) (keys : List String) :
    Scope.Mirrors ρ keys (.ofFields c) (.ofFields c) := mirrors_of_moved (Fields.moved_eq_self hc) keys

/-- Without probes, no name's value moves. -/
theorem moved_resolveName (hregistry : (Value.context registry).probeFree = true)
    (hc : (Value.context c).probeFree = true) (ρ : ℕ ↪ ℕ) (name : String) :
    (resolveName registry (.ofFields c) name).moved ρ = resolveName registry (.ofFields c) name := by
  have hself := mirrors_self hc ρ [name, (Scope.segments name).1]
  have hname : Known [name, (Scope.segments name).1] name :=
    ⟨List.mem_cons_self, List.mem_cons_of_mem _ List.mem_cons_self⟩
  rw [← hself.resolveName registry hname, Fields.moved_eq_self hregistry]

/-- A value that does not move passes one of the moved tests if it passes one of the tests. -/
theorem passesAny_of_moved {ρ : ℕ ↪ ℕ} {b : Bool} (hv : v.moved ρ = v) (h : (v.passesAny ws).outcome = .ok b) :
    (v.passesAny (ws.map (Value.moved ρ))).outcome = .ok b := by
  have hmoved := passesAny_moved (ρ := ρ) v ws
  rw [hv] at hmoved
  rw [hmoved]
  show (v.passesAny ws).outcome.map id = _
  rw [h]
  rfl

/-- **A name's value is in a list of tests if and only if the tests alone accept it**, or it is a boolean and
one of the tests is the number that it equals. The tests are tests by comparison, intervals, numbers and texts
that do not name the tested value, in a context without saved tests that does not ask for reports, and the tests
alone do not fail. What stands in the parentheses behind `in` is read as their list; this is in question only
where the first of several tests is an interval, as then all of it may be one interval. -/
theorem membership_agrees (registry c : Fields) (name source : String) (t q : Tree) (us : List Tree)
    (v w : Value) (hname : Lexer.IsName name) (ht : parse true source = .ok t)
    (htests : t.tests? = some (false, us)) (hplain : ∀ u ∈ us, u.isPlainTest = true) (hinput : ¬ t.Mentions)
    (hq : parse false (membership name source) = .ok q)
    (hread : 2 ≤ us.length → us.head?.any Tree.isInterval = true → q.listsTests = true)
    (hkey : c.get? Scope.reportKey = none) (hregistry : (Value.context registry).probeFree = true)
    (hc : (Value.context c).probeFree = true) (hv : resolveName registry (.ofFields c) name = v)
    (hunary : (unaryTest ⟨registry, 0⟩ source (c.put Scope.inputKey v) false).outcome = .ok w) :
    ∃ b, (evaluate ⟨registry, 0⟩ (membership name source) c).outcome = .ok (.boolean b) ∧
      (b = true ↔ w = .boolean true ∨ ∃ x k n, v = .boolean x ∧ .token k ∈ us ∧
        k.assemble = .ok (.expr (.number n)) ∧ n.eqv (.ofBool x) = true) := by
  -- the tests alone, with the value under `?`
  obtain ⟨negated, us', htests', -, ⟨-, hfail⟩ | ⟨es, ts, hmake, hbuild, hlists⟩⟩ := build_tests ht
  · rw [unaryTest_of_error ht hfail] at hunary
    cases hunary
  cases htests.symm.trans htests'
  have hkey' : (c.put Scope.inputKey v).get? Scope.reportKey = none := by
    rw [Fields.get_put, if_neg (by decide), hkey]
  have hanswer : (ts.eval registry (.ofFields (c.put Scope.inputKey v)) v).outcome = .ok w := by
    have hget : (Scope.ofFields (c.put Scope.inputKey v)).get Scope.inputKey = v := by
      unfold Scope.get
      rw [get_ofFields, Fields.get_put, if_pos rfl]
      rfl
    rwa [unaryTest_of_build ht hbuild, hget] at hunary
  obtain ⟨ws, b, hws, hyields, hpasses, hb⟩ :=
    tests_answer hlists hmake hplain (reports_ofFields hkey') hanswer
  -- the same tests in the membership
  let ρ : ℕ ↪ ℕ := placesBehind (name.length + 5)
  have hmake' := make_in_membership ht (fun u hu => isPart_of_tests htests hu) hmake name
  have hws' := values_without_input ht hinput hbuild hlists hregistry hc ρ hws
  have hlistless : ∀ w ∈ ws.map (Value.moved ρ), w.isList = false := by
    rw [List.forall_mem_map]
    intro w hw
    rw [Value.isList_moved, isList_of_values hyields w hw]
  have hpasses' : ((resolveName registry (.ofFields c) name).passesAny (ws.map (Value.moved ρ))).outcome =
      .ok b := by
    refine passesAny_of_moved (moved_resolveName hregistry hc ρ name) ?_
    rw [hv]
    exact hpasses
  refine ⟨b, evaluate_membership hq (parse_membership hname ht htests hplain hq hread) hmake'
    (reports_ofFields hkey) hws' hlistless hpasses', hb.trans (or_congr_right ⟨?_, ?_⟩)⟩
  · rintro ⟨x, n, hx, hn, heqv⟩
    obtain ⟨k, hk, hmade⟩ := (number_mem_values hyields).1 hn
    exact ⟨x, k, n, hx, hk, hmade, heqv⟩
  · rintro ⟨x, k, n, hx, hk, hmade, heqv⟩
    exact ⟨x, n, hx, (number_mem_values hyields).2 ⟨k, hk, hmade⟩, heqv⟩

/-- The boolean or null that an outcome is. -/
def verdictOf : Except Failure Value → Option (Option Bool)
  | .ok .null => some none
  | .ok (.boolean b) => some (some b)
  | _ => none

theorem eq_ok_of_verdictOf {x : Except Failure Value} {o : Option Bool} (h : verdictOf x = some o) :
    x = .ok (.ofBool? o) := by
  unfold verdictOf at h
  split at h <;> cases h <;> rfl

theorem membership_agrees_on_pair : ∃ t q us, parse true "[1..3],7" = .ok t ∧ t.tests? = some (false, us) ∧
    parse false "x in ([1..3],7)" = .ok q ∧ q.listsTests = true ∧
      (unaryTest .standard "[1..3],7" [("x", .whole 2), ("?", .whole 2)] false).outcome = .ok (.boolean true) ∧
      (evaluate .standard "x in ([1..3],7)" [("x", .whole 2)]).outcome = .ok (.boolean true) := by
  let interval : Tree := .node .interval (some ⟨0, 6⟩)
    [.node .intervalStart (some ⟨0, 1⟩) [.token ⟨.leftBracket, "[", some ⟨0, 1⟩⟩],
      .token ⟨.number, "1", some ⟨1, 2⟩⟩, .token ⟨.number, "3", some ⟨4, 5⟩⟩,
      .node .intervalEnd (some ⟨5, 6⟩) [.token ⟨.rightBracket, "]", some ⟨5, 6⟩⟩]]
  let seven : Tree := .token ⟨.number, "7", some ⟨7, 8⟩⟩
  have ht : parse true "[1..3],7" = .ok (.node .unaryTests (some ⟨0, 8⟩)
      [.node .positiveUnaryTests (some ⟨0, 8⟩) [interval, seven]]) := by rfl
  have hinput : ¬ (Tree.node .unaryTests (some ⟨0, 8⟩)
      [.node .positiveUnaryTests (some ⟨0, 8⟩) [interval, seven]]).Mentions := by
    simp [interval, seven]
  obtain ⟨q, hq, hlists⟩ : ∃ q, parse false "x in ([1..3],7)" = .ok q ∧ q.listsTests = true := by
    have hread : (parse false "x in ([1..3],7)").toOption.any Tree.listsTests = true := by decide +kernel
    cases hq : parse false "x in ([1..3],7)" with
    | error f =>
      rw [hq] at hread
      cases hread
    | ok q =>
      rw [hq] at hread
      exact ⟨q, rfl, hread⟩
  have hunary : (unaryTest .standard "[1..3],7" [("x", .whole 2), ("?", .whole 2)] false).outcome =
      .ok (.boolean true) := eq_ok_of_verdictOf (o := some true) (by decide +kernel)
  have hname : Lexer.IsName "x" := ⟨by decide, List.all_eq_true.1 (by decide), by decide⟩
  obtain ⟨b, hb, hiff⟩ := membership_agrees standardRegistry [("x", .whole 2)] "x" "[1..3],7" _ q
    [interval, seven] (.whole 2) (.boolean true) hname ht rfl (by decide) hinput hq (fun _ _ => hlists) rfl
    (by decide) rfl rfl hunary
  cases hiff.2 (.inl rfl)
  exact ⟨_, q, _, ht, rfl, hq, hlists, hunary, hb⟩

/-- Whether a source is some plain tests. -/
def readsPlainTests (source : String) : Bool :=
  ((parse true source).toOption.bind Tree.tests?).any fun (negated, us) => !negated && us.all Tree.isPlainTest

/-- Where both matchers differ: true is among two numbers; and two intervals are no list of tests in
parentheses, as all from the first parenthesis to the last one is one interval. -/
theorem membership_differs :
    (readsPlainTests "1, 2" = true ∧
      (evaluate .standard "x in (1, 2)" [("x", .boolean true)]).outcome = .ok (.boolean true) ∧
      (unaryTest .standard "1, 2" [("x", .boolean true), ("?", .boolean true)] false).outcome = .ok .null) ∧
    readsPlainTests "[[][false]..y[,[1..[][]..1[..1[-1]" = true ∧
      (evaluate .standard "x in ([[][false]..y[,[1..[][]..1[..1[-1])"
        [("x", .list [.whole 1]), ("y", .list [.whole 2])]).outcome = .ok (.boolean false) ∧
      (unaryTest .standard "[[][false]..y[,[1..[][]..1[..1[-1]"
        [("x", .list [.whole 1]), ("y", .list [.whole 2]), ("?", .list [.whole 1])] false).outcome =
          .ok (.boolean true) := by
  refine ⟨⟨by decide +kernel, ?_, ?_⟩, by decide +kernel, ?_, ?_⟩
  · exact eq_ok_of_verdictOf (o := some true) (by decide +kernel)
  · exact eq_ok_of_verdictOf (o := none) (by decide +kernel)
  · exact eq_ok_of_verdictOf (o := some false) (by decide +kernel)
  · exact eq_ok_of_verdictOf (o := some true) (by decide +kernel)

end Agreement

end Criterion

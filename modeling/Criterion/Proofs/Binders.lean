import Criterion.Proofs.Naming

/-!
# The names that a source binds

Loops and quantifiers give values to names of their own. These names stand in the tree of the source,
as its identifiers.

* `Expr.binders`: the names that are bound in an expression.
* `binders_of_assemble`: what a rule makes binds what its parts bind; only the rule that gives a name to
  a list binds one itself.
* `Derives.bindersKnown`: **the artifacts of derived trees bind identifiers of their trees only.**
* `binders_of_parse`: so it is for the tree of a source.
-/

namespace Criterion

namespace Expr

mutual

/-- The names that loops and quantifiers bind in an expression. -/
def binders : Expr → List String
  | .null | .boolean _ | .number _ | .text _ | .wildcard | .name _ | .registered _ | .input
  | .procedure => []
  | .list items => bindersOfItems items
  | .context entries => bindersOfEntries entries
  | .unary _ a => binders a
  | .arithmetic _ a b | .relation _ a b | .member a b | .disjunction a b | .conjunction a b
  | .range a b | .filter a b => binders a ++ binders b
  | .between a low high => binders a ++ binders low ++ binders high
  | .instanceOf a _ => binders a
  | .choose condition yes none => binders condition ++ binders yes
  | .choose condition yes (some no) => binders condition ++ binders yes ++ binders no
  | .loop bindings body => bindings.map (·.1) ++ bindersOfEntries bindings ++ binders body
  | .quantified _ bindings condition =>
    bindings.map (·.1) ++ bindersOfEntries bindings ++ binders condition
  | .call _ callee arguments => binders callee ++ bindersOfItems arguments
  | .path target _ => binders target
  | .test _ _ operand => binders operand
  | .interval _ _ start stop _ => binders start ++ binders stop

/-- The names that are bound in some expressions. -/
def bindersOfItems : List Expr → List String
  | [] => []
  | e :: rest => binders e ++ bindersOfItems rest

/-- The names that are bound in the expressions behind some keys. -/
def bindersOfEntries : List (String × Expr) → List String
  | [] => []
  | (_, e) :: rest => binders e ++ bindersOfEntries rest

end

end Expr

/-- The names that are bound in an artifact. -/
def Artifact.binders : Artifact → List String
  | .expr e => e.binders
  | .entry _ value => value.binders
  | .binding name domain => name :: domain.binders
  | .bindings bs => bs.map (·.1) ++ Expr.bindersOfEntries bs
  | .arguments es => Expr.bindersOfItems es
  | .tests ts => Expr.bindersOfItems ts.tests
  | .text _ | .arithmetic _ | .relation _ | .quantifier _ => []

section Rules

variable {a : Artifact} {as : List Artifact} {n : String}

theorem binders_of_operand {e : Expr} (h : a.operand? = some e) (hn : n ∈ e.binders) :
    n ∈ a.binders := by
  cases a <;> cases h
  · exact hn
  all_goals exact absurd hn List.not_mem_nil

theorem mem_bindersOfItems {es : List Expr} :
    n ∈ Expr.bindersOfItems es ↔ ∃ e ∈ es, n ∈ e.binders := by
  induction es with
  | nil => simp [Expr.bindersOfItems]
  | cons e rest ih => simp [Expr.bindersOfItems, ih]

theorem mem_bindersOfEntries {bs : List (String × Expr)} :
    n ∈ Expr.bindersOfEntries bs ↔ ∃ b ∈ bs, n ∈ b.2.binders := by
  induction bs with
  | nil => simp [Expr.bindersOfEntries]
  | cons b rest ih => simp [Expr.bindersOfEntries, ih]

theorem binders_of_operands {es : List Expr} (h : as.mapM Artifact.operand? = some es)
    (hn : n ∈ Expr.bindersOfItems es) : ∃ a ∈ as, n ∈ a.binders := by
  obtain ⟨e, he, hn⟩ := mem_bindersOfItems.1 hn
  obtain ⟨a, ha, hoperand⟩ := mem_of_mapM h he
  exact ⟨a, ha, binders_of_operand hoperand hn⟩

theorem binders_of_context {e : Expr}
    (h : (do return .context (← as.mapM Artifact.entry?)) = some e) (hn : n ∈ e.binders) :
    ∃ a ∈ as, n ∈ a.binders := by
  obtain ⟨es, hes, h⟩ := Option.bind_eq_some_iff.1 h
  cases h
  obtain ⟨⟨key, e⟩, he, hn⟩ := mem_bindersOfEntries.1 hn
  obtain ⟨a, ha, hentry⟩ := mem_of_mapM hes he
  refine ⟨a, ha, ?_⟩
  cases a <;> cases hentry
  exact hn

/-- The bindings of a loop bind their names and what their lists bind. -/
theorem binders_of_bindings {b : Artifact} (h : (as.mapM Artifact.binding?).map .bindings = some b)
    (hn : n ∈ b.binders) : ∃ a ∈ as, n ∈ a.binders := by
  obtain ⟨bs, hbs, rfl⟩ := Option.map_eq_some_iff.1 h
  obtain ⟨⟨name, e⟩, he, hn⟩ : ∃ p ∈ bs, n = p.1 ∨ n ∈ p.2.binders := by
    rcases List.mem_append.1 hn with hn | hn
    · obtain ⟨p, hp, rfl⟩ := List.mem_map.1 hn
      exact ⟨p, hp, .inl rfl⟩
    · obtain ⟨p, hp, hn⟩ := mem_bindersOfEntries.1 hn
      exact ⟨p, hp, .inr hn⟩
  obtain ⟨a, ha, hbinding⟩ := mem_of_mapM hbs he
  refine ⟨a, ha, ?_⟩
  -- only a binding is read as one
  cases a <;> cases hbinding
  exact List.mem_cons.2 hn

theorem binders_of_tests {b : Artifact} (h : (Rule.unaryTests? as).map .tests = some b)
    (hn : n ∈ b.binders) : ∃ a ∈ as, n ∈ a.binders := by
  obtain ⟨ts, hts, rfl⟩ := Option.map_eq_some_iff.1 h
  unfold Rule.unaryTests? at hts
  split at hts
  · obtain ⟨es, hes, h⟩ := Option.bind_eq_some_iff.1 hts
    cases h
    obtain ⟨a, ha, hn⟩ := binders_of_operands hes hn
    exact ⟨a, List.mem_of_mem_drop (List.mem_of_mem_dropLast ha), hn⟩
  · obtain ⟨es, hes, h⟩ := Option.bind_eq_some_iff.1 hts
    cases h
    exact binders_of_operands hes hn

theorem binders_of_comparison {e : Expr} (h : Rule.comparison? as = some e) (hn : n ∈ e.binders) :
    ∃ a ∈ as, n ∈ a.binders := by
  unfold Rule.comparison? at h
  split at h
  all_goals
    simp [Option.bind_eq_some_iff] at h
    try simp only [List.exists_mem_cons_iff]
  all_goals grind [Expr.binders, → binders_of_operand]

theorem binders_of_expr {site : ℕ} {text : String} {rule : Rule} {b : Artifact}
    (h : (rule.expr? site text as).map .expr = some b) (hn : n ∈ b.binders) :
    ∃ a ∈ as, n ∈ a.binders := by
  obtain ⟨e, he, rfl⟩ := Option.map_eq_some_iff.1 h
  unfold Rule.expr? at he
  split at he
  all_goals first
    | exact binders_of_context he hn
    | exact binders_of_comparison he hn
    | skip
  -- the other rules take their parts apart, or all of them as operands
  all_goals
    simp [Option.bind_eq_some_iff] at he
    try simp only [List.exists_mem_cons_iff]
  all_goals grind [Expr.binders, Artifact.binders, → binders_of_operand, → binders_of_operands]

theorem binders_of_artifact {site : ℕ} {text : String} {rule : Rule} {b : Artifact}
    (h : rule.artifact? site text as = some b) (hname : rule ≠ .inExpression) (hn : n ∈ b.binders) :
    ∃ a ∈ as, n ∈ a.binders := by
  unfold Rule.artifact? at h
  split at h
  all_goals first
    | exact absurd rfl hname
    | exact binders_of_tests h hn
    | exact binders_of_bindings h hn
    | exact binders_of_expr h hn
    | skip
  all_goals
    simp [Option.bind_eq_some_iff] at h
    try simp only [List.exists_mem_cons_iff]
  all_goals grind [Artifact.binders, Expr.bindersOfItems, → binders_of_operand, → binders_of_operands]

/-- What a rule makes binds what its parts bind, unless it gives a name to a list. -/
theorem binders_of_assemble {site : ℕ} {text : String} {rule : Rule} {b : Artifact}
    (h : rule.assemble site text as = .ok b) (hname : rule ≠ .inExpression) (hn : n ∈ b.binders) :
    ∃ a ∈ as, n ∈ a.binders :=
  binders_of_artifact (Nonterminal.artifact_of_assemble h) hname hn

/-- A token binds nothing by itself. -/
theorem binders_of_token {k : Token} (h : k.assemble = .ok a) : a.binders = [] := by
  have hnumber : ∀ {e : Expr}, numberLiteral k.text = .ok e → e.binders = [] := by
    intro e he
    unfold numberLiteral at he
    dsimp only at he
    split at he
    · cases he
      rfl
    · cases he
  unfold Token.assemble at h
  split at h
  · cases hliteral : numberLiteral k.text with
    | error e =>
      rw [hliteral] at h
      cases h
    | ok e =>
      rw [hliteral] at h
      cases h
      exact hnumber hliteral
  all_goals first
    | cases h; rfl
    | split at h <;> cases h; rfl

/-- The rule that gives a name to a list binds this name. -/
theorem binders_of_named_list {site : ℕ} {text name : String} {b : Artifact}
    (h : Rule.inExpression.assemble site text (.text name :: as) = .ok b) (hn : n ∈ b.binders) :
    n = name ∨ ∃ a ∈ as, n ∈ a.binders := by
  match as with
  | [a] =>
    cases ha : a.operand? with
    | none =>
      simp [Rule.assemble, Rule.artifact?, ha] at h
    | some e =>
      simp only [Rule.assemble, Rule.artifact?, ha, Option.map_some, Except.ok.injEq] at h
      subst h
      rcases List.mem_cons.1 hn with rfl | hn
      · exact .inl rfl
      · exact .inr ⟨a, List.mem_singleton_self a, binders_of_operand ha hn⟩
  | [] => cases h
  | _ :: _ :: _ => cases h

end Rules

/-! ## Trees of derivations -/

/-- All that an artifact binds are identifiers of some trees. -/
def BoundIn (ts : List Tree) (a : Artifact) : Prop :=
  ∀ n ∈ a.binders, ∃ k ∈ Tree.leavesOf ts, k.kind = .identifier ∧ k.text = n

/-- Whatever some trees are built into, it binds identifiers of the trees only. -/
abbrev BindersKnown : String → List Tree → Prop := EachMade BoundIn

section Trees

variable {source : String} {ts us : List Tree} {w : List Lexeme}

theorem boundIn_append (ts us : List Tree) (a : Artifact) (h : BoundIn ts a ∨ BoundIn us a) :
    BoundIn (ts ++ us) a := by
  intro n hn
  rw [leavesOf_append]
  rcases h with h | h
  · obtain ⟨k, hk, hkn⟩ := h n hn
    exact ⟨k, List.mem_append_left _ hk, hkn⟩
  · obtain ⟨k, hk, hkn⟩ := h n hn
    exact ⟨k, List.mem_append_right _ hk, hkn⟩

theorem bindersKnown_token {k : Token} (hk : k.kind.isTrivia = false) :
    BindersKnown source [.token k] := by
  refine EachMade.token hk fun a ha n hn => ?_
  rw [binders_of_token ha] at hn
  exact absurd hn List.not_mem_nil

theorem bindersKnown_node {rule : Rule} (hrule : rule ≠ .ambiguous) (hname : rule ≠ .inExpression)
    (h : BindersKnown source ts) (span : Option Span) : BindersKnown source [.node rule span ts] := by
  intro as has a ha n hn
  obtain ⟨parts, made, hparts, hmade, rfl⟩ := assemble_of_artifacts hrule has
  obtain rfl := List.mem_singleton.1 ha
  obtain ⟨b, hb, hn⟩ := binders_of_assemble hmade hname hn
  rw [leavesOf_cons, leaves_node, leavesOf_nil, List.append_nil]
  exact h parts hparts b hb n hn

/-- The node that gives a name to a list binds its first token. -/
theorem bindersKnown_named_list {l : Lexeme} (hl : l.kind = .identifier)
    (h : BindersKnown source (.token l.token :: ts)) (span : Option Span) :
    BindersKnown source [.node .inExpression span (.token l.token :: ts)] := by
  intro as has a ha n hn
  obtain ⟨parts, made, hparts, hmade, rfl⟩ := assemble_of_artifacts (by decide) has
  obtain rfl := List.mem_singleton.1 ha
  -- the first part is the name itself
  obtain ⟨others, rfl⟩ : ∃ others, parts = .text l.text :: others := by
    have hsplit : Tree.token l.token :: ts = ([l].map fun l => .token l.token) ++ ts := rfl
    have hall := hparts
    rw [hsplit, artifacts_append,
      Run.bind_of_ok (artifacts_identifiers (List.forall_mem_singleton.2 hl))] at hall
    obtain ⟨others, -, hall⟩ := Run.bind_outcome_ok hall
    cases hall
    exact ⟨others, rfl⟩
  rw [leavesOf_cons, leaves_node, leavesOf_nil, List.append_nil]
  rcases binders_of_named_list hmade hn with rfl | ⟨b, hb, hn⟩
  · refine ⟨l.token, ?_, hl, rfl⟩
    rw [leavesOf_cons, leaves_token]
    exact List.mem_cons_self
  · exact h _ hparts b (List.mem_cons_of_mem _ hb) n hn

theorem rule_of_named_list (n : Nonterminal) : ∀ p ∈ n.productions,
    n.nodeOf? p = some .inExpression → n = .inExpression := by
  cases n <;> decide

/-- The node of a production, if it is so for the trees of its body. -/
theorem bindersKnown_production {n : Nonterminal} {p : Production} {rule : Rule}
    (hp : p ∈ n.productions) (hr : n.nodeOf? p = some rule) (hd : Derives n.keeps p.body w ts)
    (h : BindersKnown source ts) : BindersKnown source [.node rule (spanOf w) ts] := by
  by_cases hname : rule = .inExpression
  · subst hname
    obtain rfl := rule_of_named_list n p hp hr
    obtain rfl := List.mem_singleton.1 hp
    cases hd with
    | named hl hd => exact bindersKnown_named_list (List.mem_singleton.1 hl) h _
  · have hrule : rule ≠ .ambiguous := by
      rintro rfl
      exact n.node_ne_ambiguous p hp hr
    exact bindersKnown_node hrule hname h _

/-- **The artifacts of derived trees bind identifiers of their trees only.** -/
theorem Derives.bindersKnown {keeps : Bool} {body : List Symbol} (h : Derives keeps body w ts)
    (hspelled : ∀ l ∈ w, l.Spelled) : BindersKnown source ts :=
  h.eachMade boundIn_append (fun _ hl => bindersKnown_token hl.trivia)
    (fun _ _ _ _ _ hp hr hd _ hts => bindersKnown_production hp hr hd hts) hspelled

end Trees

/-- What the tree of a source is built into binds identifiers of the tree only. -/
theorem binders_of_parse {unary : Bool} {source : String} {t : Tree} (h : parse unary source = .ok t)
    {a : Artifact} (ha : (t.build source).outcome = .ok (some a)) :
    ∀ n ∈ a.binders, ∃ k ∈ t.leaves, k.kind = .identifier ∧ k.text = n := by
  obtain ⟨ls, htokens, ht⟩ := tells_of_parse h
  have hknown : BindersKnown source [t] :=
    Derives.bindersKnown (ht.derives_last : Derives false _ _ _) htokens.spelled
  have hleaves : Tree.leavesOf [t] = t.leaves := by simp
  rw [← hleaves]
  exact hknown [a] (artifacts_of_build ha) a List.mem_cons_self

end Criterion

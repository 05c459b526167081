import Criterion.Proofs.Acceptance
import Criterion.Proofs.Shapes
import Criterion.Proofs.Walk

/-!
# Every tree of a source can be built

The grammar and the making of artifacts agree on the form of every part, so the tree of a source that
is accepted is built. All that can fail is an integer with too many digits.

* `Builds`: trees that are built into artifacts of some form, unless one of their integers is too long.
* `Derives.builds`: the trees of a derivation.
* `build_of_parse`: **the tree of a source is built into untagged expressions or into tests, and it
  fails exactly if one of its integers is too long.**
-/

namespace Criterion

/-- Trees that are built into artifacts of some form, unless one of their integers has too many
digits. -/
structure Builds (source : String) (ts : List Tree) (P : List Artifact → Prop) : Prop where
  fails : (∃ k ∈ Tree.leavesOf ts, k.TooLong) →
    (Tree.artifacts source ts).outcome = .error .tooManyDigits
  succeeds : (∀ k ∈ Tree.leavesOf ts, ¬ k.TooLong) →
    ∃ as, (Tree.artifacts source ts).outcome = .ok as ∧ P as

theorem artifacts_append (source : String) (ts us : List Tree) :
    Tree.artifacts source (ts ++ us) = (do
      let as ← Tree.artifacts source ts
      let bs ← Tree.artifacts source us
      return as ++ bs) := by
  induction ts with
  | nil => simp
  | cons t ts ih => simp only [List.cons_append, artifacts_cons, ih, bind_assoc, pure_bind,
      List.append_assoc]

theorem artifacts_cons_ok {source : String} {t : Tree} {ts : List Tree} {as bs : List Artifact}
    (h : (Tree.artifacts source [t]).outcome = .ok as) (h' : (Tree.artifacts source ts).outcome = .ok bs) :
    (Tree.artifacts source (t :: ts)).outcome = .ok (as ++ bs) := by
  rw [← List.singleton_append, artifacts_append, Run.bind_of_ok h, Run.bind_of_ok h']
  rfl

theorem operands_of_exprs (es : List Expr) :
    (es.map Artifact.expr).mapM Artifact.operand? = some es := by
  induction es with
  | nil => rfl
  | cons e es ih =>
    rw [List.map_cons, List.mapM_cons, ih]
    rfl

theorem entries_of_pairs (es : List (String × Expr)) :
    (es.map fun p => Artifact.entry p.1 p.2).mapM Artifact.entry? = some es := by
  induction es with
  | nil => rfl
  | cons p es ih =>
    rw [List.map_cons, List.mapM_cons, ih]
    rfl

/-- What a tree is built into by itself. -/
theorem artifacts_singleton (source : String) (t : Tree) :
    (Tree.artifacts source [t]).outcome = (t.build source).outcome.map Option.toList := by
  rw [build_eq_artifact, artifacts_cons, artifacts_nil]
  simp only [pure_bind, List.append_nil, Run.bind_outcome]
  cases (Tree.artifact source t).outcome <;> rfl

theorem artifacts_of_build {source : String} {t : Tree} {a : Artifact}
    (h : (t.build source).outcome = .ok (some a)) : (Tree.artifacts source [t]).outcome = .ok [a] := by
  rw [artifacts_singleton, h]
  rfl

/-- What a token leaves by itself. -/
theorem artifacts_token {k : Token} (h : k.kind.isTrivia = false) (source : String) :
    (Tree.artifacts source [.token k]).outcome = k.assemble.map ([·]) := by
  have htoken : Tree.artifact source (.token k) = (do
      Run.emit (.enter (.token k))
      let a ← Run.ofExcept k.assemble
      Run.emit (.leave (.token k) a)
      return some a) := by
    simp only [Tree.artifact, h, Bool.false_eq_true, if_false]
    rfl
  rw [artifacts_cons, htoken]
  simp only [Run.bind_outcome]
  cases k.assemble <;> rfl

/-- What a tree of one reading leaves by itself. -/
theorem artifacts_node {rule : Rule} (h : rule ≠ .ambiguous) (source : String) (span : Option Span)
    (ts : List Tree) : (Tree.artifacts source [.node rule span ts]).outcome = (do
      let parts ← (Tree.artifacts source ts).outcome
      let a ← (Tree.node rule span ts).assemble source parts
      return [a]) := by
  rw [artifacts_cons, artifact_node h]
  simp only [Run.bind_outcome]
  cases (Tree.artifacts source ts).outcome with
  | error e => rfl
  | ok parts =>
    simp only [Run.emit_outcome, Run.ofExcept_outcome, Bind.bind, Except.bind]
    cases (Tree.node rule span ts).assemble source parts <;> rfl

/-- What a node leaves whose rule can take the artifacts of its parts. -/
theorem artifacts_node_ok {rule : Rule} (hrule : rule ≠ .ambiguous) {source : String} {span : Option Span}
    {ts : List Tree} {as : List Artifact} {a : Artifact} (h : (Tree.artifacts source ts).outcome = .ok as)
    (hmake : ∀ site text, rule.assemble site text as = .ok a) :
    (Tree.artifacts source [.node rule span ts]).outcome = .ok [a] := by
  rw [artifacts_node hrule, h]
  change (do return [← rule.assemble _ _ as]) = _
  rw [hmake]
  rfl

/-- A node is built from the artifacts of its parts. -/
theorem build_node {rule : Rule} (h : rule ≠ .ambiguous) (source : String) (span : Option Span)
    (ts : List Tree) : ((Tree.node rule span ts).build source).outcome = (do
      let parts ← (Tree.artifacts source ts).outcome
      let a ← (Tree.node rule span ts).assemble source parts
      return some a) := by
  rw [build_eq_artifact, artifact_node h]
  simp only [Run.bind_outcome, Run.emit_outcome, Run.ofExcept_outcome]
  rfl

namespace Builds

variable {source : String} {ts us : List Tree} {P Q : List Artifact → Prop}

theorem nil (h : P []) : Builds source [] P :=
  ⟨fun ⟨_, hk, _⟩ => absurd hk (by simp), fun _ => ⟨[], rfl, h⟩⟩

theorem mono (h : Builds source ts P) (hPQ : ∀ as, P as → Q as) : Builds source ts Q := by
  refine ⟨h.fails, fun hno => ?_⟩
  obtain ⟨as, has, hP⟩ := h.succeeds hno
  exact ⟨as, has, hPQ as hP⟩

/-- Trees one after the other. The first one that fails ends all. -/
theorem append (h : Builds source ts P) (h' : Builds source us Q) :
    Builds source (ts ++ us) fun cs => ∃ as bs, cs = as ++ bs ∧ P as ∧ Q bs := by
  have hfirst : (∃ k ∈ Tree.leavesOf ts, k.TooLong) →
      (Tree.artifacts source (ts ++ us)).outcome = .error .tooManyDigits := by
    intro hk
    rw [artifacts_append, Run.bind_of_error (h.fails hk)]
  constructor
  · rintro ⟨k, hk, hlong⟩
    by_cases hts : ∃ k ∈ Tree.leavesOf ts, k.TooLong
    · exact hfirst hts
    · obtain ⟨as, has, -⟩ := h.succeeds fun k hk hlong => hts ⟨k, hk, hlong⟩
      -- the first trees are built, so the integer is one of the others
      have hus : ∃ k ∈ Tree.leavesOf us, k.TooLong := by
        rw [leavesOf_append, List.mem_append] at hk
        rcases hk with hk | hk
        · exact absurd ⟨k, hk, hlong⟩ hts
        · exact ⟨k, hk, hlong⟩
      rw [artifacts_append, Run.bind_of_ok has, Run.bind_of_error (h'.fails hus)]
  · intro hno
    rw [leavesOf_append] at hno
    obtain ⟨as, has, hP⟩ := h.succeeds fun k hk => hno k (List.mem_append_left _ hk)
    obtain ⟨bs, hbs, hQ⟩ := h'.succeeds fun k hk => hno k (List.mem_append_right _ hk)
    refine ⟨as ++ bs, ?_, as, bs, rfl, hP, hQ⟩
    rw [artifacts_append, Run.bind_of_ok has, Run.bind_of_ok hbs]
    rfl

theorem token {l : Lexeme} (h : l.Spelled) :
    Builds source [.token l.token] fun as => ∃ a, as = [a] ∧ l.kind.Stands a := by
  obtain ⟨hfails, hsucceeds⟩ := assemble_token h
  have hleaves : Tree.leavesOf [.token l.token] = [l.token] := by simp
  constructor
  · rw [hleaves, artifacts_token h.trivia]
    rintro ⟨k, hk, hlong⟩
    obtain rfl := List.mem_singleton.1 hk
    rw [hfails hlong]
    rfl
  · rw [hleaves, artifacts_token h.trivia]
    intro hno
    obtain ⟨a, ha, hstands⟩ := hsucceeds (hno _ (List.mem_singleton_self _))
    rw [ha]
    exact ⟨[a], rfl, a, rfl, hstands⟩

/-- A node whose rule can take the artifacts of its parts. -/
theorem node {rule : Rule} (hrule : rule ≠ .ambiguous) {span : Option Span} {R : Artifact → Prop}
    (h : Builds source ts P) (hmake : ∀ as, P as → ∀ site text,
      ∃ a, rule.assemble site text as = .ok a ∧ R a) :
    Builds source [.node rule span ts] fun as => ∃ a, as = [a] ∧ R a := by
  have hleaves : Tree.leavesOf [.node rule span ts] = Tree.leavesOf ts := by simp
  constructor
  · rw [hleaves, artifacts_node hrule]
    intro hlong
    rw [h.fails hlong]
    rfl
  · rw [hleaves, artifacts_node hrule]
    intro hno
    obtain ⟨as, has, hP⟩ := h.succeeds hno
    obtain ⟨a, ha, hR⟩ := hmake as hP _ _
    refine ⟨[a], ?_, a, rfl, hR⟩
    rw [has]
    change (do return [← rule.assemble _ _ as]) = _
    rw [ha]
    rfl

end Builds

section Derived

variable {source : String} {keeps : Bool} {body : List Symbol} {w : List Lexeme} {ts : List Tree}

/-- The trees that a production leaves are built into the artifact that its rule stands for, if the
trees of its body are built into artifacts that fill it. -/
theorem builds_shape {n : Nonterminal} {p : Production} (hp : p ∈ n.productions)
    (hd : Derives n.keeps p.body w ts) (h : Builds source ts (Fills n.keeps p.body)) :
    Builds source (n.shape p w ts) fun as => ∃ a, as = [a] ∧ n.Stands a := by
  cases hr : n.nodeOf? p with
  | some rule =>
    have hrule : rule ≠ .ambiguous := by
      rintro rfl
      exact n.node_ne_ambiguous p hp hr
    rw [Nonterminal.shape_of_some hr]
    exact h.node hrule (n.takes p hp rule hr)
  | none =>
    rw [Nonterminal.shape_of_none hp hr hd]
    exact h.mono fun as has => n.gives hp hr has

/-- **The trees of a derivation are built**, into artifacts that fill its body. -/
theorem Derives.builds (h : Derives keeps body w ts) (hw : ∀ l ∈ w, l.Spelled) :
    Builds source ts (Fills keeps body) := by
  induction h with
  | nil => exact .nil .nil
  | named hl _ ih =>
    obtain ⟨hspelled, hw⟩ := List.forall_mem_cons.1 hw
    refine ((Builds.token hspelled).append (ih hw)).mono ?_
    rintro _ ⟨_, bs, rfl, ⟨a, rfl, ha⟩, hbs⟩
    exact .named hl ha hbs
  | kept hl _ ih =>
    obtain ⟨hspelled, hw⟩ := List.forall_mem_cons.1 hw
    refine ((Builds.token hspelled).append (ih hw)).mono ?_
    rintro _ ⟨_, bs, rfl, ⟨a, rfl, ha⟩, hbs⟩
    exact .kept hl ha hbs
  | dropped _ _ ih => exact (ih (List.forall_mem_cons.1 hw).2).mono fun _ => .dropped
  | rule hp hd _ ihbody ih =>
    obtain ⟨hv, hw⟩ := List.forall_mem_append.1 hw
    refine ((builds_shape hp hd (ihbody hv)).append (ih hw)).mono ?_
    rintro _ ⟨_, bs, rfl, ⟨a, rfl, ha⟩, hbs⟩
    exact .rule ha hbs
  | absent _ ih => exact (ih hw).mono fun _ => .absent
  | present _ ih => exact (ih hw).mono fun _ => .present
  | done _ ih => exact (ih hw).mono fun _ => .done
  | again _ ih => exact (ih hw).mono fun _ => .again

/-- The tree of a rule is built into what the rule stands for. -/
theorem Nonterminal.Tells.builds {n : Nonterminal} {t : Tree} (h : n.Tells w t) (source : String)
    (hw : ∀ l ∈ w, l.Spelled) :
    ((∃ k ∈ t.leaves, k.TooLong) → (t.build source).outcome = .error .tooManyDigits) ∧
      ((∀ k ∈ t.leaves, ¬ k.TooLong) →
        ∃ a, (t.build source).outcome = .ok (some a) ∧ n.Stands a) := by
  have hbuilds : Builds source [t] (Fills false [.rule n]) := h.derives_last.builds hw
  have hleaves : Tree.leavesOf [t] = t.leaves := by simp
  obtain ⟨hfails, hsucceeds⟩ := hbuilds
  rw [hleaves, artifacts_singleton] at hfails hsucceeds
  constructor
  · intro hlong
    have herror := hfails hlong
    cases hbuild : (t.build source).outcome with
    | error e =>
      rw [hbuild] at herror
      cases herror
      rfl
    | ok a =>
      rw [hbuild] at herror
      cases herror
  · intro hno
    obtain ⟨as, has, hfills⟩ := hsucceeds hno
    obtain ⟨a, bs, rfl, hstands, hnil⟩ := fills_rule.1 hfills
    rw [fills_nil.1 hnil] at has
    refine ⟨a, ?_, hstands⟩
    cases hbuild : (t.build source).outcome with
    | error e =>
      rw [hbuild] at has
      cases has
    | ok made =>
      rw [hbuild] at has
      cases made with
      | none => cases has
      | some made => cases has; rfl

end Derived

/-! ## Properties of what is made -/

/-- Each artifact that some trees are built into stands in a relation to these trees. -/
def EachMade (P : List Tree → Artifact → Prop) (source : String) (ts : List Tree) : Prop :=
  ∀ as, (Tree.artifacts source ts).outcome = .ok as → ∀ a ∈ as, P ts a

namespace EachMade

variable {P : List Tree → Artifact → Prop} {source : String} {ts us : List Tree}

theorem nil : EachMade P source [] := by
  intro as has a ha
  cases has
  exact absurd ha List.not_mem_nil

theorem append (hmono : ∀ ts us a, P ts a ∨ P us a → P (ts ++ us) a) (h : EachMade P source ts)
    (h' : EachMade P source us) : EachMade P source (ts ++ us) := by
  intro cs hcs a ha
  rw [artifacts_append] at hcs
  obtain ⟨as, has, hcs⟩ := Run.bind_outcome_ok hcs
  obtain ⟨bs, hbs, hcs⟩ := Run.bind_outcome_ok hcs
  cases hcs
  rcases List.mem_append.1 ha with ha | ha
  · exact hmono ts us a (.inl (h as has a ha))
  · exact hmono ts us a (.inr (h' bs hbs a ha))

theorem token {k : Token} (hk : k.kind.isTrivia = false)
    (h : ∀ a, k.assemble = .ok a → P [.token k] a) : EachMade P source [.token k] := by
  intro as has a ha
  rw [artifacts_token hk] at has
  cases hassemble : k.assemble with
  | error e =>
    rw [hassemble] at has
    cases has
  | ok made =>
    rw [hassemble] at has
    cases has
    rw [List.mem_singleton.1 ha]
    exact h made hassemble

end EachMade

/-- **What holds for each token and for each node of a derivation holds for all its trees**, if it does
not get lost among more trees. A node may use what is known of its tokens and that it holds for its
parts. -/
theorem Derives.eachMade {P : List Tree → Artifact → Prop} {Q : Lexeme → Prop} {source : String}
    (hmono : ∀ ts us a, P ts a ∨ P us a → P (ts ++ us) a)
    (htoken : ∀ l, Q l → EachMade P source [.token l.token])
    (hnode : ∀ n p w ts rule, p ∈ Nonterminal.productions n → n.nodeOf? p = some rule →
      Derives n.keeps p.body w ts → (∀ l ∈ w, Q l) → EachMade P source ts →
        EachMade P source [.node rule (spanOf w) ts])
    {keeps : Bool} {body : List Symbol} {w : List Lexeme} {ts : List Tree}
    (h : Derives keeps body w ts) (hw : ∀ l ∈ w, Q l) : EachMade P source ts := by
  induction h with
  | nil => exact .nil
  | named _ _ ih | kept _ _ ih =>
    obtain ⟨hl, hw⟩ := List.forall_mem_cons.1 hw
    exact (htoken _ hl).append hmono (ih hw)
  | dropped _ _ ih => exact ih (List.forall_mem_cons.1 hw).2
  | @rule _ n p _ v _ us _ hp hd _ ihbody ih =>
    obtain ⟨hv, hw⟩ := List.forall_mem_append.1 hw
    have hshape : EachMade P source (n.shape p v us) := by
      cases hr : n.nodeOf? p with
      | none =>
        rw [Nonterminal.shape_of_none hp hr hd]
        exact ihbody hv
      | some rule =>
        rw [Nonterminal.shape_of_some hr]
        exact hnode n p v us rule hp hr hd hv (ihbody hv)
    exact hshape.append hmono (ih hw)
  | absent _ ih | present _ ih | done _ ih | again _ ih => exact ih hw

/-- What the tree of a source is built into is what the start rule stands for. -/
theorem stands_of_build {unary : Bool} {source : String} {t : Tree} {a : Artifact}
    (h : parse unary source = .ok t) (ha : (t.build source).outcome = .ok (some a)) :
    (startRule unary).Stands a := by
  obtain ⟨ls, htokens, ht⟩ := tells_of_parse h
  obtain ⟨hfails, hsucceeds⟩ := ht.builds source htokens.spelled
  by_cases hlong : ∃ k ∈ t.leaves, k.TooLong
  · rw [hfails hlong] at ha
    cases ha
  · obtain ⟨b, hb, hstands⟩ := hsucceeds fun k hk hk' => hlong ⟨k, hk, hk'⟩
    rw [hb] at ha
    cases ha
    exact hstands

/-- Where an integer has too many digits, building the tree of a source fails. -/
theorem build_error_of_parse {unary : Bool} {source : String} {t : Tree} (h : parse unary source = .ok t)
    (hlong : ∃ k ∈ t.leaves, k.TooLong) : (t.build source).outcome = .error .tooManyDigits := by
  obtain ⟨ls, htokens, ht⟩ := tells_of_parse h
  exact (ht.builds source htokens.spelled).1 hlong

/-- Else it is built, into a list of expressions or into tests. -/
theorem build_ok_of_parse {unary : Bool} {source : String} {t : Tree} (h : parse unary source = .ok t)
    (hshort : ∀ k ∈ t.leaves, ¬ k.TooLong) : ∃ a, (t.build source).outcome = .ok (some a) ∧
      if unary then (∃ ts, a = .tests ts) ∧ a.tag = some .test
      else (∃ es, a = .expr (.list es)) ∧ a.tag = none := by
  obtain ⟨ls, htokens, ht⟩ := tells_of_parse h
  obtain ⟨a, ha, hstands⟩ := (ht.builds source htokens.spelled).2 hshort
  refine ⟨a, ha, ?_⟩
  cases unary with
  | true =>
    obtain ⟨ts, rfl⟩ := hstands
    exact ⟨⟨ts, rfl⟩, rfl⟩
  | false =>
    obtain ⟨es, rfl⟩ := hstands
    exact ⟨⟨es, rfl⟩, rfl⟩

/-- **The tree of a source is built**, into a list of expressions, which has no tag, or into tests,
unless one of its integers has too many digits. Then, and only then, building fails, and for no
other reason. -/
theorem build_of_parse {unary : Bool} {source : String} {t : Tree}
    (h : parse unary source = .ok t) :
    ((∃ k ∈ t.leaves, k.TooLong) → (t.build source).outcome = .error .tooManyDigits) ∧
      ((∀ k ∈ t.leaves, ¬ k.TooLong) →
        ∃ a, (t.build source).outcome = .ok (some a) ∧
          if unary then (∃ ts, a = .tests ts) ∧ a.tag = some .test
          else (∃ es, a = .expr (.list es)) ∧ a.tag = none) :=
  ⟨build_error_of_parse h, build_ok_of_parse h⟩

theorem build_of_less_than : ∃ t a, parse true "< 5" = .ok t ∧
    (t.build "< 5").outcome = .ok (some a) ∧ a.tag = some .test := by
  have h : parse true "< 5" = .ok (.node .unaryTests (some ⟨0, 3⟩)
      [.node .positiveUnaryTests (some ⟨0, 3⟩)
        [.node .simplePositiveUnaryTest (some ⟨0, 3⟩)
          [.token ⟨.less, "<", some ⟨0, 1⟩⟩, .token ⟨.number, "5", some ⟨2, 3⟩⟩]]]) := by rfl
  obtain ⟨a, ha, -, htag⟩ := (build_of_parse h).2 (by decide)
  exact ⟨_, a, h, ha, htag⟩

end Criterion

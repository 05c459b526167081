import Criterion.Proofs.Comments
import Criterion.Proofs.Targets

/-!
# Parentheses around what stands behind `in`

A target behind the word `in` may stand in parentheses. Both sources evaluate the operand, then the target, and ask
whether the value of the operand passes one of the elements of the target's value. So the parentheses change
nothing, not even around a target whose value is a list, which is read as an expression in parentheses and not as a
list of one test.

* `TargetForm.Asks`: a source that is read as a comparison by its word.
* `TargetForm.Asks.evaluates`: **it evaluates a membership of the operand in the target.**
* `TargetForm.Asks.evaluate_elsewhere`: the same membership with the target at another place.
* `parentheses_around_target`: **parentheses around a target do not change it**, wherever both sources are read as
  comparisons by their words.
* `parentheses_may_merge`: they may be read otherwise, since the brackets of intervals may be reversed.
-/

namespace Criterion

/-! ## What is read by a level -/

namespace ReadBy

variable {source : String} {ls : List Lexeme} {t : Tree} {e : Expr} {ρ : ℕ ↪ ℕ}

/-- An operand may stand behind the word. -/
theorem target (h : ReadBy Grammar.instanceLevel source ls t) : ReadBy Grammar.inTest source ls t := by
  obtain ⟨l, hl, hkind⟩ := h.starts
  have hsimple : Reader.Blocked (Grammar.simpleTest (Grammar.expression ls.length)) ⟨0, ls⟩ :=
    Grammar.simpleTest_found_nil hl fun hrelation => hkind (List.mem_append_right _ hrelation)
  refine ⟨h.tokens, ?_⟩
  rw [Grammar.all?_inTest, hsimple.all?, Option.none_or, h.read]

theorem comesOf (h : ReadBy Grammar.inTest source ls t) : t.ComesOf ls := by
  rcases h.test_or_operand with htest | hoperand
  · exact htest.tells_test.comesOf rfl
  · exact hoperand.tells.comesOf rfl

/-- It is built into an expression if no integer has too many digits. -/
theorem builds (h : ReadBy Grammar.inTest source ls t) (hshort : ∀ l ∈ t.leaves, ¬ l.TooLong) :
    ∃ e, (t.build source).outcome = .ok (some (.expr e)) := by
  rcases h.test_or_operand with htest | hoperand
  · obtain ⟨_, hmade, e, rfl⟩ := (htest.tells_test.builds source h.tokens.spelled).2 hshort
    exact ⟨e, hmade⟩
  · obtain ⟨_, hmade, e, rfl⟩ := (hoperand.tells.builds source h.tokens.spelled).2 hshort
    exact ⟨e, hmade⟩

theorem inside (h : ReadBy Grammar.inTest source ls t) : t.Inside source := fun _ hu =>
  (h.comesOf.span_of_isPart h.tokens List.infix_rfl hu).imp fun _ => And.imp_right And.right

theorem shifts {j k : ℕ} (h : ReadBy Grammar.inTest source ls t) (hρ : ∀ i < source.length, ρ (i + j) = i + k) :
    t.Shifts ρ j k := by
  intro u hu s hs
  obtain ⟨s', hs', hstart, hstop⟩ := h.comesOf.span_of_isPart h.tokens List.infix_rfl hu
  obtain rfl : s = s' := Option.some.inj (hs.symm.trans hs')
  exact hρ _ (hstart.trans_le hstop)

/-- What it is built into where its source stands in a longer one. -/
theorem build_in_whole {whole : String} {before after : List Char} (h : ReadBy Grammar.inTest source ls t)
    (hwhole : whole.toList = before ++ (source.toList ++ after))
    (hbuild : (t.build source).outcome = .ok (some (.expr e))) :
    ((t.moved before.length).build whole).outcome = .ok (some (.expr (e.moved (placesBehind before.length)))) := by
  rw [build_eq_artifact] at hbuild ⊢
  exact artifact_in_whole hwhole t h.inside hbuild

/-- What it is built into does not move if its places do not. -/
theorem moved_of_build (h : ReadBy Grammar.inTest source ls t)
    (hbuild : (t.build source).outcome = .ok (some (.expr e))) (hρ : ∀ i < source.length, ρ i = i) :
    e.moved ρ = e := by
  have hsource : source.toList = [] ++ (source.toList ++ []) := (List.append_nil _).symm
  rw [build_eq_artifact, ← Tree.moved_zero t] at hbuild
  have hmoved := artifact_elsewhere hsource hsource t h.inside (h.shifts hρ) hbuild
  exact (Artifact.expr.inj (Option.some.inj (Except.ok.inj (hbuild.symm.trans hmoved)))).symm

end ReadBy

/-! ## Memberships -/

/-- A list of one test by comparison is tried as the test is. -/
theorem eval_member_test (registry : Fields) (scope : Scope) (a : Expr) (site : ℕ) (op : Relation) (operand : Expr) :
    (Expr.member a (.list [.test site op operand])).eval registry scope =
      (Expr.member a (.test site op operand)).eval registry scope := by
  simp only [Expr.eval, Expr.evalItems, pure_bind]
  rfl

namespace TargetForm

section Sources

variable {form : TargetForm} {operand target source : String} {p k : ℕ} {xs es : List Lexeme} {x t u : Tree}
  {ts : List Tree} {a e : Expr}

theorem Trees.leaves (h : form.Trees u ts) {l : Token} (hl : l ∈ u.leaves) : l ∈ Tree.leavesOf ts := by
  cases h <;> simp [leaves_node, leavesOf_cons, hl]

/-- What stands behind the word makes a comparison a membership. -/
theorem Trees.builds (h : form.Trees u ts) (hu : (u.build source).outcome = .ok (some (.expr e))) :
    ∃ parts tests, (Tree.artifacts source ts).outcome = .ok parts ∧
      (∀ a, Rule.comparison? (.expr a :: .text "in" :: parts) = some (.member a tests)) ∧
      ∀ registry scope a, (Expr.member a tests).eval registry scope = (Expr.member a e).eval registry scope := by
  cases h with
  | plain => exact ⟨_, e, artifacts_of_build hu, fun _ => rfl, fun _ _ _ => rfl⟩
  | @single span =>
    have hbehind : (Tree.artifacts source [.node .parenthesizedExpression span [u]]).outcome = .ok [.expr e] :=
      artifacts_node_ok (by decide) (artifacts_of_build hu) fun _ _ => rfl
    exact ⟨_, e, hbehind, fun _ => rfl, fun _ _ _ => rfl⟩
  | @listed span _ _ _ _ hnode hopening hclosing =>
    have htests : (Tree.artifacts source [.node .positiveUnaryTests span [u]]).outcome = .ok [.expr (.list [e])] :=
      artifacts_positiveTests span (.cons hu .nil)
    rw [hnode] at hu
    obtain ⟨site, op, operand, rfl⟩ := comparison_made hu
    exact ⟨_, .list [.test site op operand], artifacts_cons_ok (artifacts_parenthesis (.inl hopening))
      (artifacts_cons_ok htests (artifacts_parenthesis (.inr hclosing))), fun _ => rfl,
      fun registry scope a => eval_member_test registry scope a site op operand⟩

/-- A source of a form that is read as a comparison by its word. -/
def Asks (form : TargetForm) (operand target source : String) (p k : ℕ) : Prop :=
  form.IsSource operand target source p k ∧ ∃ t, IsExpression source t ∧ t.AsksAt p

/-- An operand and a target that may be put together, with their tokens and trees. -/
structure Parts (operand target : String) (xs es : List Lexeme) (x t : Tree) : Prop where
  operand_read : ReadBy Grammar.instanceLevel operand xs x
  target_read : ReadBy Grammar.inTest target es t
  operand_open : ¬ EndsInComment false operand.toList
  target_open : ¬ EndsInComment false target.toList

/-- An integer in one of them has too many digits, or both are built into expressions. -/
theorem Parts.build_cases (h : Parts operand target xs es x t) : (∃ l ∈ x.leaves ++ t.leaves, l.TooLong) ∨
    ∃ a e, (x.build operand).outcome = .ok (some (.expr a)) ∧ (t.build target).outcome = .ok (some (.expr e)) := by
  by_cases hlong : ∃ l ∈ x.leaves ++ t.leaves, l.TooLong
  · exact .inl hlong
  obtain ⟨a, ha⟩ := h.operand_read.target.builds fun l hl htoo => hlong ⟨l, List.mem_append_left _ hl, htoo⟩
  obtain ⟨e, he⟩ := h.target_read.builds fun l hl htoo => hlong ⟨l, List.mem_append_right _ hl, htoo⟩
  exact .inr ⟨a, e, ha, he⟩

theorem IsSource.operand_placed (h : form.IsSource operand target source p k) :
    ∃ after, source.toList = [] ++ (operand.toList ++ after) := by
  obtain ⟨gap, gap', -, -, -, -, hsource, -, -⟩ := h
  exact ⟨_, hsource⟩

theorem IsSource.target_placed (h : form.IsSource operand target source p k) :
    ∃ before after, source.toList = before ++ (target.toList ++ after) ∧ before.length = k := by
  obtain ⟨gap, gap', -, -, -, -, hsource, rfl, rfl⟩ := h
  refine ⟨operand.toList ++ (gap ++ ('i' :: 'n' :: (gap' ++ form.opening))), form.closing, ?_, ?_⟩
  · rw [hsource]
    simp only [List.append_assoc, List.cons_append]
  · simp only [List.length_append, List.length_cons, String.length_toList]
    omega

/-- The tree of a source that is read as a comparison by its word. -/
theorem Asks.reads (h : form.Asks operand target source p k) (hparts : Parts operand target xs es x t) :
    ∃ span span' ts, form.Trees (t.moved k) ts ∧
      parse false source = .ok (.node .expressions span [.node .comparison span' (x :: .token (inAt p).token :: ts)]) := by
  obtain ⟨hsource, u, hu, hasks⟩ := h
  obtain ⟨row, u', -, halone, hform, -⟩ :=
    hsource.reads hparts.operand_read hparts.operand_open hparts.target_read hparts.target_open
  obtain ⟨span, hparse⟩ := hu
  obtain ⟨span', hparse'⟩ := halone.isExpression
  obtain ⟨-, -, hsame⟩ := Tree.node.inj (Except.ok.inj (hparse.symm.trans hparse'))
  obtain rfl := List.singleton_inj.1 hsame
  obtain ⟨span'', ts, hts, rfl⟩ := hform hasks
  exact ⟨span, span'', ts, hts, hparse⟩

/-- **What a source evaluates** that is read as a comparison by its word: a membership of the operand in the
target, if no integer has too many digits. -/
theorem Asks.evaluates (h : form.Asks operand target source p k) (hparts : Parts operand target xs es x t)
    (registry c : Fields) :
    ((∃ l ∈ x.leaves ++ t.leaves, l.TooLong) → evaluate ⟨registry, 0⟩ source c = Run.fail .tooManyDigits) ∧
    (∀ a e, (x.build operand).outcome = .ok (some (.expr a)) → (t.build target).outcome = .ok (some (.expr e)) →
      evaluate ⟨registry, 0⟩ source c =
        ((Expr.member a (e.moved (placesBehind k))).eval registry (.ofFields c)).action) := by
  obtain ⟨span, span', ts, hts, hparse⟩ := h.reads hparts
  constructor
  · rintro ⟨l, hl, hlong⟩
    refine evaluate_of_error hparse (build_error_of_parse hparse ?_)
    simp only [leaves_node, leavesOf_cons, leavesOf_nil, List.append_nil, leaves_token]
    rcases List.mem_append.1 hl with hl | hl
    · exact ⟨l, List.mem_append_left _ hl, hlong⟩
    · have hmoved : l.moved k ∈ (t.moved k).leaves := by
        rw [leaves_behind]
        exact List.mem_map_of_mem hl
      exact ⟨l.moved k, List.mem_append_right _ (List.mem_append_right _ (hts.leaves hmoved)), hlong⟩
  · intro a e ha he
    obtain ⟨after, hoperand⟩ := h.1.operand_placed
    obtain ⟨before, after', htarget, rfl⟩ := h.1.target_placed
    have hx := hparts.operand_read.target.build_in_whole hoperand ha
    rw [List.length_nil, Tree.moved_zero, hparts.operand_read.target.moved_of_build ha fun _ _ => rfl] at hx
    obtain ⟨parts, tests, hartifacts, hmember, heval⟩ := hts.builds (hparts.target_read.build_in_whole htarget he)
    have hword : (Tree.artifacts source [.token (inAt p).token]).outcome = .ok [.text "in"] := rfl
    have hcomparison : ((Tree.node .comparison span' (x :: .token (inAt p).token :: ts)).build source).outcome =
        .ok (some (.expr (.member a tests))) := by
      have hchildren := artifacts_cons_ok (artifacts_of_build hx) (artifacts_cons_ok hword hartifacts)
      have hmade : ∀ site text, Rule.comparison.assemble site text (.expr a :: .text "in" :: parts) =
          .ok (.expr (.member a tests)) := fun site text =>
        Nonterminal.assemble_of_artifact (congrArg (Option.map Artifact.expr) (hmember a))
      rw [build_node (by decide), hchildren]
      show (Rule.comparison.assemble _ _ (.expr a :: .text "in" :: parts) >>= fun made => pure (some made)) = _
      rw [hmade]
      rfl
    rw [evaluate_of_expression hparse hcomparison, heval]

end Sources

/-! ## The same membership elsewhere -/

/-- Places move where those of an operand stay and those of a target move from `k` to `k'`. -/
structure Carries (ρ : ℕ ↪ ℕ) (operand target : String) (k k' : ℕ) : Prop where
  stay : ∀ i < operand.length, ρ i = i
  move : ∀ i < target.length, ρ (i + k) = i + k'

section Places

variable {form form' : TargetForm} {operand target source source' : String} {p p' k k' : ℕ} {xs es : List Lexeme}
  {x t : Tree} {a e : Expr} {ρ : ℕ ↪ ℕ} {registry c : Fields} {v w : Value}

theorem exists_carries (hk : operand.length ≤ k) (hle : k ≤ k') (target : String) :
    ∃ ρ, Carries ρ operand target k k' := by
  let move : ℕ → ℕ := fun i => if i < k then i else i + (k' - k)
  have hmove : Function.Injective move := by
    intro i j hij
    simp only [move] at hij
    split_ifs at hij <;> omega
  refine ⟨⟨move, hmove⟩, fun i hi => if_pos (hi.trans_le hk), fun i _ => ?_⟩
  show (if i + k < k then i + k else i + k + (k' - k)) = i + k'
  rw [if_neg (by omega)]
  omega

theorem IsSource.length_le (h : form.IsSource operand target source p k) : operand.length ≤ k := by
  obtain ⟨_, _, -, -, -, -, -, rfl, rfl⟩ := h
  omega

/-- What a target is built into at two places. -/
theorem IsSource.moved_target (h : form.IsSource operand target source p k)
    (h' : form'.IsSource operand target source' p' k') (ht : ReadBy Grammar.inTest target es t)
    (hbuild : (t.build target).outcome = .ok (some (.expr e))) (hρ : Carries ρ operand target k k') :
    (e.moved (placesBehind k)).moved ρ = e.moved (placesBehind k') := by
  obtain ⟨before, after, hwhole, rfl⟩ := h.target_placed
  obtain ⟨before', after', hwhole', rfl⟩ := h'.target_placed
  have hplaced := ht.build_in_whole hwhole hbuild
  have hplaced' := ht.build_in_whole hwhole' hbuild
  rw [build_eq_artifact] at hplaced hplaced'
  have hmoved := artifact_elsewhere hwhole hwhole' t ht.inside (ht.shifts hρ.move) hplaced
  exact Artifact.expr.inj (Option.some.inj (Except.ok.inj (hmoved.symm.trans hplaced')))

/-- The answer of a membership does not move if the operand does not. -/
theorem moved_answer (hregistry : registry.moved ρ = registry) (hc : c.moved ρ = c) (ha : a.moved ρ = a)
    (h : ((Expr.member a e).eval registry (.ofFields c)).outcome = .ok w) : w.moved ρ = w := by
  rw [Expr.eval] at h
  obtain ⟨v, hv, h⟩ := Run.bind_outcome_ok h
  obtain ⟨_, -, h⟩ := Run.bind_outcome_ok h
  obtain ⟨found, -, h⟩ := Run.bind_outcome_ok h
  cases h
  have hself := congrArg Run.outcome (eval_moved_self hregistry hc a)
  rw [ha, hv] at hself
  have hmoved : (Except.ok v : Except Failure Value) = .ok (v.moved ρ) := by
    refine hself.trans ?_
    show ((a.eval registry (.ofFields c)).outcome).map _ = _
    rw [hv]
    rfl
  rw [← answer_moved, ← Except.ok.inj hmoved]

/-- **The same membership with the target at another place**: the same value or failure, and the calls with the
places of their tests moved, if the saved tests stay as they are. -/
theorem Asks.evaluate_elsewhere (h : form.Asks operand target source p k)
    (h' : form'.Asks operand target source' p' k') (hparts : Parts operand target xs es x t)
    (hρ : Carries ρ operand target k k') (hregistry : registry.moved ρ = registry) (hc : c.moved ρ = c) :
    evaluate ⟨registry, 0⟩ source' c = Action.moved ρ (evaluate ⟨registry, 0⟩ source c) ∧
      (evaluate ⟨registry, 0⟩ source' c).outcome = (evaluate ⟨registry, 0⟩ source c).outcome := by
  obtain ⟨hlong, hshort⟩ := h.evaluates hparts registry c
  obtain ⟨hlong', hshort'⟩ := h'.evaluates hparts registry c
  rcases hparts.build_cases with hmem | ⟨a, e, ha, he⟩
  · rw [hlong hmem, hlong' hmem]
    exact ⟨rfl, rfl⟩
  have hstay : a.moved ρ = a := hparts.operand_read.target.moved_of_build ha hρ.stay
  have hmember : (Expr.member a (e.moved (placesBehind k))).moved ρ = .member a (e.moved (placesBehind k')) := by
    rw [Expr.moved, hstay, h.1.moved_target h'.1 hparts.target_read he hρ]
  rw [hshort a e ha he, hshort' a e ha he, ← hmember, eval_moved_self hregistry hc, action_moved]
  refine ⟨rfl, ?_⟩
  show ((Expr.member a (e.moved (placesBehind k))).eval registry (.ofFields c)).outcome.map (Value.moved ρ) =
    ((Expr.member a (e.moved (placesBehind k))).eval registry (.ofFields c)).outcome
  cases houtcome : ((Expr.member a (e.moved (placesBehind k))).eval registry (.ofFields c)).outcome with
  | error f => rfl
  | ok w => exact congrArg Except.ok (moved_answer hregistry hc hstay houtcome)

/-- With the target at the same place, the same value or failure and the same calls, whatever tests are saved. -/
theorem Asks.evaluate_eq (h : form.Asks operand target source p k) (h' : form'.Asks operand target source' p' k)
    (hparts : Parts operand target xs es x t) (registry c : Fields) :
    evaluate ⟨registry, 0⟩ source c = evaluate ⟨registry, 0⟩ source' c := by
  obtain ⟨hlong, hshort⟩ := h.evaluates hparts registry c
  obtain ⟨hlong', hshort'⟩ := h'.evaluates hparts registry c
  rcases hparts.build_cases with hmem | ⟨a, e, ha, he⟩
  · rw [hlong hmem, hlong' hmem]
  · rw [hshort a e ha he, hshort' a e ha he]

/-- A membership in an operand evaluates first the one, then the other, and tries the elements of its value. -/
theorem Asks.evaluate_member (h : form.Asks operand target source p k) (hparts : Parts operand target xs es x t)
    (htarget : ReadBy Grammar.instanceLevel target es t)
    (hw : (evaluateBehind k registry target c).outcome = .ok w) :
    evaluate ⟨registry, 0⟩ source c = (do
      let v ← evaluate ⟨registry, 0⟩ operand c
      let w ← evaluateBehind k registry target c
      (do return answer (Scope.ofFields c).reports v (some (← v.passesAny w.elements)) : Eval Value).action) := by
  obtain ⟨hlong, hshort⟩ := h.evaluates hparts registry c
  obtain ⟨span, hoperand⟩ := hparts.operand_read.alone.isExpression
  obtain ⟨span', hparse⟩ := htarget.alone.isExpression
  rcases (IsExpression.build_cases ⟨span', hparse⟩) with ⟨-, hfail⟩ | ⟨-, e, he⟩
  · rw [evaluateBehind_of_error hparse (hfail span')] at hw
    cases hw
  rcases (IsExpression.build_cases ⟨span, hoperand⟩) with ⟨⟨l, hl, htoo⟩, hfail⟩ | ⟨-, a, ha⟩
  · rw [hlong ⟨l, List.mem_append_left _ hl, htoo⟩, evaluate_of_error hoperand (hfail span)]
    rfl
  · rw [hshort a e ha he, evaluate_of_expression hoperand ha, evaluateBehind_of_build hparse he, Expr.eval]
    simp only [action_bind]

end Places

end TargetForm

/-! ## Parentheses around a target -/

/-- A text that ends in a line comment has a slash. -/
theorem EndsInComment.slash_mem {unary : Bool} {cs : List Char} (h : EndsInComment unary cs) : '/' ∈ cs := by
  induction h with
  | here hscan =>
    obtain ⟨r, rfl⟩ := comment_slash hscan (.inr rfl)
    exact List.mem_cons_self
  | behind _ _ ih => exact List.mem_append_right _ ih

section Sources

variable {form : TargetForm} {operand target source : String} {p k : ℕ} {xs es : List Lexeme} {x t : Tree}

/-- An operand and a target of the grammar are read. -/
theorem exists_parts (hoperand : IsOf .instanceTest operand) (htarget : IsOf .inTest target)
    (hopen : ¬ EndsInComment false operand.toList) (hopen' : ¬ EndsInComment false target.toList) :
    ∃ xs es x t, TargetForm.Parts operand target xs es x t := by
  obtain ⟨xs, x, hx⟩ := hoperand.exists_operand
  obtain ⟨es, t, ht⟩ := htarget.exists_target
  exact ⟨xs, es, x, t, hx, ht, hopen, hopen'⟩

/-- A target that is an operand is read as one. -/
theorem ReadBy.operand_of_isOf (h : ReadBy Grammar.inTest source es t) (hof : IsOf .instanceTest source) :
    ReadBy Grammar.instanceLevel source es t := by
  refine h.test_or_operand.resolve_left fun htest => ?_
  obtain ⟨ls, hlex, hlanguage⟩ := hof
  obtain ⟨l, hl, hkind⟩ := Nonterminal.operand_starts rfl hlanguage
  obtain ⟨-, j, hj, hrelation⟩ := htest.relation
  obtain rfl : ls = es := (Lexed.mk.inj (hlex.symm.trans (lex_eq_iff.2 h.tokens))).1
  cases Option.mem_unique hl hj
  exact hkind (List.mem_append_right _ hrelation)

/-- A source is one expression, a comparison by its word unless a longer operand goes on behind the word. -/
theorem TargetForm.IsSource.accepted (h : form.IsSource operand target source p k)
    (hparts : TargetForm.Parts operand target xs es x t) :
    ∃ u, IsExpression source u ∧ (¬ u.AsksAt p →
      (∃ w, w <+: (lex false source).lexemes ∧ xs.length < w.length ∧ w ∈ Nonterminal.instanceTest.language) ∧
        ¬ Unopened xs es) := by
  obtain ⟨row, u, hrow, halone, -, hlonger⟩ :=
    h.reads hparts.operand_read hparts.operand_open hparts.target_read hparts.target_open
  refine ⟨u, halone.isExpression, fun hnot => ?_⟩
  obtain ⟨v, hv, hlanguage⟩ := hlonger hnot
  refine ⟨⟨_, ?_, ?_, hlanguage⟩, fun hclear => ?_⟩
  · rw [lex_eq_iff.2 halone.tokens]
    exact (List.prefix_append_right_inj xs).2 (List.prefix_cons_inj _ |>.2 hv)
  · rw [List.length_append, List.length_cons]
    omega
  · exact notMem_behind_in ⟨_, hparts.operand_read.tells⟩ rfl
      ((hrow.unopened hclear).mono (List.Subset.refl _) hv.subset) hlanguage

end Sources

/-- **Parentheses around a target do not change it.** An operand and a target behind the word `in`, with parentheses
or without, are accepted. Each source is a comparison by this word, unless a longer operand goes on behind it, which
takes two dots in the operand, or in the target if the operand has a closing bracket. Where both are such
comparisons, they have the same value or failure: with the same calls and whatever tests are saved if the target
stands at the same place in both, else wherever its places can be moved from the one to the other so that the saved
tests stay as they are, as they do if there are none. So a membership in an operand tries the elements of its value,
be it in parentheses or not. -/
theorem parentheses_around_target (operand target : String) (hoperand : IsOf .instanceTest operand)
    (htarget : IsOf .inTest target) (hopen : ¬ EndsInComment false operand.toList)
    (hopen' : ¬ EndsInComment false target.toList) :
    (∀ form source p k, TargetForm.IsSource form operand target source p k → ∃ t, IsExpression source t ∧
      (¬ t.AsksAt p → (∃ w, w <+: (lex false source).lexemes ∧ (lex false operand).lexemes.length < w.length ∧
          w ∈ Nonterminal.instanceTest.language) ∧
        ¬ Unopened (lex false operand).lexemes (lex false target).lexemes)) ∧
    (∀ form form' source source' p p' k k', TargetForm.Asks form operand target source p k →
      TargetForm.Asks form' operand target source' p' k' → ∀ registry c,
        (k = k' → evaluate ⟨registry, 0⟩ source c = evaluate ⟨registry, 0⟩ source' c) ∧
        ((∃ ρ, TargetForm.Carries ρ operand target k k' ∧ registry.moved ρ = registry ∧ c.moved ρ = c) →
          (evaluate ⟨registry, 0⟩ source c).outcome = (evaluate ⟨registry, 0⟩ source' c).outcome) ∧
        ((Value.context registry).probeFree = true → (Value.context c).probeFree = true →
          (evaluate ⟨registry, 0⟩ source c).outcome = (evaluate ⟨registry, 0⟩ source' c).outcome)) ∧
    (IsOf .instanceTest target → ∀ form source p k, TargetForm.Asks form operand target source p k →
      ∀ registry c w, (evaluateBehind k registry target c).outcome = .ok w →
        evaluate ⟨registry, 0⟩ source c = (do
          let v ← evaluate ⟨registry, 0⟩ operand c
          let w ← evaluateBehind k registry target c
          (do return answer (Scope.ofFields c).reports v (some (← v.passesAny w.elements)) : Eval Value).action)) := by
  obtain ⟨xs, es, x, t, hparts⟩ := exists_parts hoperand htarget hopen hopen'
  have hxs : (lex false operand).lexemes = xs := by rw [lex_eq_iff.2 hparts.operand_read.tokens]
  have hes : (lex false target).lexemes = es := by rw [lex_eq_iff.2 hparts.target_read.tokens]
  refine ⟨fun form source p k h => ?_, fun form form' source source' p p' k k' h h' registry c => ?_,
    fun htarget form source p k h registry c w hw =>
      h.evaluate_member hparts (hparts.target_read.operand_of_isOf htarget) hw⟩
  · rw [hxs, hes]
    exact h.accepted hparts
  · refine ⟨?_, fun ⟨ρ, hρ, hregistry, hc⟩ => (h.evaluate_elsewhere h' hparts hρ hregistry hc).2.symm,
      fun hregistry hc => ?_⟩
    · rintro rfl
      exact h.evaluate_eq h' hparts registry c
    · -- the places move from the one that stands before to the other
      rcases le_total k k' with hle | hle
      · obtain ⟨ρ, hρ⟩ := TargetForm.exists_carries h.1.length_le hle target
        exact (h.evaluate_elsewhere h' hparts hρ (Fields.moved_eq_self hregistry) (Fields.moved_eq_self hc)).2.symm
      · obtain ⟨ρ, hρ⟩ := TargetForm.exists_carries h'.1.length_le hle target
        exact (h'.evaluate_elsewhere h hparts hρ (Fields.moved_eq_self hregistry) (Fields.moved_eq_self hc)).2

/-- A list in parentheses is the list. -/
theorem membership_in_parenthesized_list : IsOf .instanceTest "x" ∧ IsOf .inTest "[1]" ∧
    ¬ EndsInComment false "x".toList ∧ ¬ EndsInComment false "[1]".toList ∧
    ∃ c : Fields, (evaluate .standard "x in [1]" c).outcome = .ok (.boolean true) ∧
      (evaluate .standard "x in ([1])" c).outcome = .ok (.boolean true) := by
  let c : Fields := [("x", .whole 1)]
  have hoperand : IsOf .instanceTest "x" := by decide +kernel
  have htarget : IsOf .inTest "[1]" := IsOf.isTarget (by decide +kernel)
  have hopen : ¬ EndsInComment false "x".toList := fun h => absurd h.slash_mem (by decide)
  have hopen' : ¬ EndsInComment false "[1]".toList := fun h => absurd h.slash_mem (by decide)
  have hgap : Gap [' '] := List.forall_mem_singleton.2 (by decide)
  obtain ⟨haccepted, hequal, -⟩ := parentheses_around_target "x" "[1]" hoperand htarget hopen hopen'
  have hclear : Unopened (lex false "x").lexemes (lex false "[1]").lexemes := ⟨by decide, fun _ => by decide⟩
  have hasks : ∀ {form source k}, TargetForm.IsSource form "x" "[1]" source 2 k →
      TargetForm.Asks form "x" "[1]" source 2 k := by
    intro form source k h
    obtain ⟨t, ht, hnot⟩ := haccepted form source 2 k h
    exact ⟨h, t, ht, by_contra fun hother => (hnot hother).2 hclear⟩
  have hplain : TargetForm.Asks .plain "x" "[1]" "x in [1]" 2 5 :=
    hasks ⟨[' '], [' '], hgap, List.cons_ne_nil _ _, hgap, fun _ => List.cons_ne_nil _ _, rfl, rfl, rfl⟩
  have hclosed : TargetForm.Asks .parenthesized "x" "[1]" "x in ([1])" 2 6 :=
    hasks ⟨[' '], [' '], hgap, List.cons_ne_nil _ _, hgap, fun _ => List.cons_ne_nil _ _, rfl, rfl, rfl⟩
  have htrue : (evaluate .standard "x in [1]" c).outcome = .ok (.boolean true) :=
    eq_ok_of_verdictOf (o := some true) (by decide +kernel)
  have hsame := (hequal _ _ _ _ _ _ _ _ hplain hclosed standardRegistry c).2.2 (by decide) (by decide)
  exact ⟨hoperand, htarget, hopen, hopen', c, htrue, hsame.symm.trans htrue⟩

/-- **An operand and a target may merge**: each of them is one by itself, and the whole is one list without the
parentheses around the target. The list in the operand is empty where that is by itself, and in the whole it ends in
the target, since the bracket that closed it can open an interval. And a line comment at the end of an operand
swallows the word. -/
theorem parentheses_may_merge :
    (IsOf .instanceTest "([] - 1 .. 1)" ∧ IsOf .inTest "(1 .. 1[ -1 ])" ∧
      ¬ EndsInComment false "(1 .. 1[ -1 ])".toList ∧
      (∃ v, (evaluate .standard "([] - 1 .. 1) in (1 .. 1[ -1 ])" []).outcome = .ok v ∧ v.isList = true) ∧
      (evaluate .standard "([] - 1 .. 1) in ((1 .. 1[ -1 ]))" []).outcome = .ok (.boolean false)) ∧
    (IsOf .instanceTest "1 //" ∧ IsOf .inTest "\n2" ∧ ¬ EndsInComment false "\n2".toList ∧
      (∀ t, parse false "1 // in \n2" ≠ .ok t) ∧ ∀ t, parse false "1 // in (\n2)" ≠ .ok t) := by
  have hisOf : ∀ s ∈ ["([] - 1 .. 1)", "(1 .. 1[ -1 ])", "1 //", "\n2"], IsOf .instanceTest s := by decide +kernel
  simp only [List.forall_mem_cons, List.not_mem_nil, false_implies, implies_true, and_true] at hisOf
  obtain ⟨hoperand, htarget, hoperand', htarget'⟩ := hisOf
  have hmerged : (evaluate .standard "([] - 1 .. 1) in (1 .. 1[ -1 ])" []).outcome.toOption.any Value.isList = true := by
    decide +kernel
  have hswallowed : (parse false "1 // in \n2").toOption.isSome = false ∧
      (parse false "1 // in (\n2)").toOption.isSome = false := by decide +kernel
  refine ⟨⟨hoperand, htarget.isTarget, fun h => absurd h.slash_mem (by decide), Run.ok_of_any hmerged,
    eq_ok_of_verdictOf (o := some false) (by decide +kernel)⟩, hoperand', htarget'.isTarget,
    fun h => absurd h.slash_mem (by decide), fun t ht => ?_, fun t ht => ?_⟩
  · rw [ht] at hswallowed
    cases hswallowed.1
  · rw [ht] at hswallowed
    cases hswallowed.2

end Criterion

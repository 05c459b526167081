import Criterion.Proofs.Locality

/-!
# Expressions in a longer source

Each rule of the grammar reads alike in a longer row of tokens, if expressions do. An expression inside a rule
has fewer tokens than the rule, so the bound on their number grows with the depth.

* `Grammar.local_expressionLevel`: a level above expressions that are read alike is read alike.
* `Grammar.local_expression`: **expressions are read alike in a longer row of tokens.**
* `Grammar.local_tests`: so are lists of tests.
-/

namespace Criterion

open Reader

namespace Grammar

variable {σ : Surroundings} {n : ℕ} {e e' : Reader Tree}

/-- What is told of by a rule takes a token. -/
theorem taking_of_tells {r : Reader Tree} {m : Nonterminal} (h : r.Yields m.Tells) : r.Taking :=
  h.mono fun _ _ ht => ht.ne_nil

section Expressions

variable (h : Local σ n (Tree.moved σ.before) e e') (he : e.Yields Nonterminal.expression.Tells)
  (he' : e'.Yields Nonterminal.expression.Tells)

/-! ## Primary expressions -/

theorem local_literal : Local σ n (Tree.moved σ.before) literal literal := local_token _

theorem moved_tokenRule (r : Rule) (t : Tree) (k : ℕ) :
    (tokenRule r t).moved k = tokenRule r (t.moved k) := by
  unfold tokenRule
  rw [moved_node, moved_span]
  rfl

include h in
/-- An interval behind its opening bracket and its first bound. -/
theorem local_intervalRest (opening start : Tree) :
    Local σ n (movedParts σ.before) (intervalRest e opening start)
      (intervalRest e' (opening.moved σ.before) (start.moved σ.before)) := by
  refine Local.weaken (local_skip_bind (h.bind (fun stop => ?_) fun _ => ?_))
  · refine Local.weaken (local_token_bind (fun closing => local_pure ?_) fun _ => .pure)
    unfold movedParts
    simp only [List.map_cons, List.map_nil, moved_tokenRule]
  · exact Steady.token.bind fun _ => .pure

/-- The rest of an interval is read by taking tokens and expressions. -/
theorem steady_intervalRest {r : Reader Tree} (hr : r.Steady) (opening start : Tree) :
    (intervalRest r opening start).Steady :=
  Steady.skip.bind fun _ => hr.bind fun _ => Steady.token.bind fun _ => .pure

/-- What follows a list's elements behind commas. -/
theorem steady_items {r : Reader Tree} (hr : r.Steady) (first : Tree) :
    (do
      let items ← chain (fun items => do
        skip .comma
        let next ← r
        return items ++ [next]) [first]
      skip .rightBracket
      return (Rule.list, items) : Reader (Rule × List Tree)).Steady :=
  (Steady.chain fun _ => Steady.skip.bind fun _ => hr.bind fun _ => .pure).bind fun _ =>
    Steady.skip.bind fun _ => .pure

include h in
theorem local_bracketed : Local σ (n + 1) (Tree.moved σ.before) (bracketed e) (bracketed e') := by
  have hempty : Local σ n (movedParts σ.before)
      (do skip .rightBracket; return (Rule.list, [])) (do skip .rightBracket; return (Rule.list, [])) :=
    Local.weaken (local_skip_bind (local_pure rfl))
  have hrest : ∀ {r : Reader Tree}, r.Steady → ∀ opening first, (either
      (do
        let items ← chain (fun items => do
          skip .comma
          let next ← r
          return items ++ [next]) [first]
        skip .rightBracket
        return (Rule.list, items))
      (intervalRest r opening first)).Steady :=
    fun hr opening first => (steady_items hr first).either (steady_intervalRest hr opening first)
  refine Local.node (local_token_bind (fun opening => ?_) fun opening => ?_)
    (Taking.token.bind fun opening => ?_)
  · refine hempty.either (h.bind (fun first => ?_) fun first => hrest h.steady' _ first)
    refine Local.either (Local.bind (local_chain (fun items => local_items .comma h items) (fun _ => ?_)
      (fun _ => ?_) rfl) (fun items => ?_) fun _ => ?_) (local_intervalRest h opening first)
    · exact Taking.skip.bind fun _ => h.steady.bind fun _ => .pure
    · exact Steady.skip.bind fun _ => h.steady'.bind fun _ => .pure
    · exact Local.weaken (local_skip_bind (local_pure rfl))
    · exact Steady.skip.bind fun _ => .pure
  · exact hempty.steady'.either (h.steady'.bind fun first => hrest h.steady' opening first)
  · exact hempty.steady.either (h.steady.bind fun first => hrest h.steady opening first)

include h in
theorem local_parenthesized :
    Local σ (n + 1) (Tree.moved σ.before) (parenthesized e) (parenthesized e') := by
  have hrest : ∀ {r : Reader Tree}, r.Steady → ∀ opening first : Tree, (either
      (intervalRest r opening first)
      (do skip .rightParen; return (Rule.parenthesizedExpression, [first]))).Steady :=
    fun hr opening first => (steady_intervalRest hr opening first).either
      (Steady.skip.bind fun _ => .pure)
  refine Local.node (local_token_bind (fun opening => h.bind (fun first => ?_) fun first => ?_)
    fun opening => ?_) (Taking.token.bind fun opening => ?_)
  · exact (local_intervalRest h opening first).either (Local.weaken (local_skip_bind (local_pure rfl)))
  · exact hrest h.steady' _ first
  · exact h.steady'.bind fun first => hrest h.steady' opening first
  · exact h.steady.bind fun first => hrest h.steady opening first

include h in
theorem local_reversed : Local σ (n + 1) (Tree.moved σ.before) (reversed e) (reversed e') := by
  refine Local.node (local_token_bind (fun opening => h.bind (fun first => ?_) fun first => ?_)
    fun opening => ?_) (Taking.token.bind fun opening => ?_)
  · exact local_intervalRest h opening first
  · exact steady_intervalRest h.steady' _ first
  · exact h.steady'.bind fun first => steady_intervalRest h.steady' opening first
  · exact h.steady.bind fun first => steady_intervalRest h.steady opening first

include h in
theorem local_entry : Local σ (n + 1) (Tree.moved σ.before) (entry e) (entry e') := by
  have hrest : ∀ {r : Reader Tree}, r.Steady → ∀ key : Tree, (do
      skip .colon
      let value ← r
      return [tokenRule .key key, value] : Reader (List Tree)).Steady :=
    fun hr _ => Steady.skip.bind fun _ => hr.bind fun _ => .pure
  refine Local.rule (local_token_bind (fun key => ?_) fun key => hrest h.steady' key)
    (Taking.token.bind fun key => hrest h.steady key)
  refine Local.weaken (local_skip_bind (h.bind (fun value => local_pure ?_) fun _ => .pure))
  simp only [List.map_cons, List.map_nil, moved_tokenRule]

include h in
theorem local_context : Local σ (n + 1) (Tree.moved σ.before) (context e) (context e') := by
  have hentries : Local σ n (List.map (Tree.moved σ.before)) (either (separated (entry e)) (pure []))
      (either (separated (entry e')) (pure [])) :=
    (local_entry h).separated.weaken.either (local_pure rfl)
  refine Local.rule (local_skip_bind (hentries.bind (fun entries => ?_) fun _ => ?_))
    (Taking.skip.bind fun _ => ?_)
  · exact Local.weaken (local_skip_bind (local_pure rfl))
  · exact Steady.skip.bind fun _ => .pure
  · exact hentries.steady.bind fun _ => Steady.skip.bind fun _ => .pure

include h he in
theorem local_parameters : Local σ (n + 1) (Tree.moved σ.before) (parameters e) (parameters e') := by
  have htaking : (separated e).Taking := (taking_of_tells he).bind fun _ => .chain fun _ =>
    Steady.skip.bind fun _ => he.steady.bind fun _ => .pure
  have harguments : Local σ n (List.map (Tree.moved σ.before))
      (either (do return [← rule .positionalParameters (separated e)]) (pure []))
      (either (do return [← rule .positionalParameters (separated e')]) (pure [])) :=
    Local.either ((h.separated.rule htaking).bind (fun _ => local_pure rfl) fun _ => .pure)
      (local_pure rfl)
  refine Local.rule (local_skip_bind (harguments.bind (fun arguments => ?_) fun _ => ?_))
    (Taking.skip.bind fun _ => ?_)
  · exact Local.weaken (local_skip_bind (local_pure rfl))
  · exact Steady.skip.bind fun _ => .pure
  · exact harguments.steady.bind fun _ => Steady.skip.bind fun _ => .pure

include h he in
theorem local_primary : Local σ (n + 1) (Tree.moved σ.before) (primary e) (primary e') := by
  have hinput : Local σ (n + 1) (Tree.moved σ.before)
      (rule .inputValue (do skip .question; return [])) (rule .inputValue (do skip .question; return [])) :=
    Local.rule (local_skip_bind (local_pure rfl)) (Taking.skip.bind fun _ => .pure)
  have hspecial : Local σ (n + 1) (Tree.moved σ.before)
      (rule .specialFunctionName (do return [← token [.specialName]]))
      (rule .specialFunctionName (do return [← token [.specialName]])) :=
    Local.rule (local_token_bind (fun _ => local_pure rfl) fun _ => .pure)
      (Taking.token.bind fun _ => .pure)
  have hdate : Local σ (n + 1) (Tree.moved σ.before)
      (rule .dateTimeConstructor (do
        let name ← token [.dateAndTime]
        return [name, ← parameters e]))
      (rule .dateTimeConstructor (do
        let name ← token [.dateAndTime]
        return [name, ← parameters e'])) := by
    have hparameters := (local_parameters h he).weaken
    refine Local.rule (local_token_bind (fun name => ?_) fun _ => ?_) (Taking.token.bind fun _ => ?_)
    · exact hparameters.bind (fun _ => local_pure rfl) fun _ => .pure
    · exact hparameters.steady'.bind fun _ => .pure
    · exact hparameters.steady.bind fun _ => .pure
  exact local_oneOf_cons local_literal (local_oneOf_cons (local_bracketed h)
    (local_oneOf_cons (local_context h) (local_oneOf_cons (local_parenthesized h)
    (local_oneOf_cons (local_reversed h) (local_oneOf_cons hinput (local_oneOf_cons hspecial
    (local_oneOf_cons hdate local_oneOf_nil)))))))

/-! ## Operators -/

theorem local_qualifiedName : Local σ n (Tree.moved σ.before) qualifiedName qualifiedName := by
  have hsteps : ∀ names : List Tree, (do
      skip .dot
      let next ← token [.identifier]
      return names ++ [next] : Reader (List Tree)).Taking :=
    fun _ => Taking.skip.bind fun _ => Steady.token.bind fun _ => .pure
  refine Local.weaken (Local.rule (local_token_bind (fun first => ?_) fun _ => ?_)
    (Taking.token.bind fun _ => ?_))
  · exact local_chain (fun names => local_items .dot (local_token _) names) hsteps
      (fun names => (hsteps names).steady) rfl
  · exact .chain fun names => (hsteps names).steady
  · exact .chain fun names => (hsteps names).steady

/-- An operand, and whether it is a plain name, moved. -/
def movedOperand (k : ℕ) (x : Tree × Bool) : Tree × Bool := (x.1.moved k, x.2)

include h he in
theorem local_postfixStep (left : Tree × Bool) : Local σ (n + 1) (movedOperand σ.before)
    (postfixStep e left) (postfixStep e' (movedOperand σ.before left)) := by
  have hfilter : Local σ (n + 1) (List.map (Tree.moved σ.before))
      (do
        skip .leftBracket
        let condition ← e
        skip .rightBracket
        return [condition])
      (do
        skip .leftBracket
        let condition ← e'
        skip .rightBracket
        return [condition]) := by
    refine local_skip_bind (h.bind (fun condition => ?_) fun _ => Steady.skip.bind fun _ => .pure)
    exact Local.weaken (local_skip_bind (local_pure rfl))
  have hcall : Local σ (n + 1) (List.map (Tree.moved σ.before))
      (do return [← parameters e]) (do return [← parameters e']) :=
    (local_parameters h he).bind (fun _ => local_pure rfl) fun _ => .pure
  have hpath : Local σ (n + 1) (List.map (Tree.moved σ.before))
      (do
        skip .dot
        return [← token [.identifier]])
      (do
        skip .dot
        return [← token [.identifier]]) :=
    local_skip_bind (Local.bind (local_token _) (fun _ => local_pure rfl) fun _ => .pure)
  refine local_oneOf_cons ?_ (local_oneOf_cons ?_ (local_oneOf_cons ?_ local_oneOf_nil))
  · exact hfilter.extend.bind (fun t => local_pure rfl) fun _ => .pure
  · exact hcall.extend.bind (fun t => local_pure rfl) fun _ => .pure
  · obtain ⟨left, named⟩ := left
    cases named with
    | true => exact local_none
    | false => exact hpath.extend.bind (fun t => local_pure rfl) fun _ => .pure

include he in
theorem taking_postfixStep (left : Tree × Bool) : (postfixStep e left).Taking := by
  have hparameters : (parameters e).Taking := taking_of_tells (yields_parameters he)
  have hcall : (do
      let t ← extend .functionInvocation left.1 (do return [← parameters e])
      return (t, false) : Reader (Tree × Bool)).Taking :=
    (Taking.extend (hparameters.bind fun _ => .pure)).bind fun _ => .pure
  refine yields_oneOf (List.forall_mem_cons.2 ⟨?_, List.forall_mem_cons.2 ⟨hcall,
    List.forall_mem_singleton.2 ?_⟩⟩)
  · refine Taking.bind (Taking.extend (Taking.skip.bind fun _ => ?_)) fun _ => .pure
    exact he.steady.bind fun _ => Steady.skip.bind fun _ => .pure
  · split
    · exact yields_none hcall.inhabited
    · refine Taking.bind (Taking.extend (Taking.skip.bind fun _ => ?_)) fun _ => .pure
      exact Steady.token.bind fun _ => .pure

include h he he' in
theorem local_postfixLevel :
    Local σ (n + 1) (Tree.moved σ.before) (postfixLevel e) (postfixLevel e') := by
  have hfirst : Local σ (n + 1) (movedOperand σ.before)
      (either (do return (← qualifiedName, true)) (do return (← primary e, false)))
      (either (do return (← qualifiedName, true)) (do return (← primary e', false))) :=
    Local.either (local_qualifiedName.bind (fun _ => local_pure rfl) fun _ => .pure)
      ((local_primary h he).bind (fun _ => local_pure rfl) fun _ => .pure)
  have hsteps' : ∀ left, (postfixStep e' left).Steady := fun left => (taking_postfixStep he' left).steady
  refine hfirst.bind (fun first => Local.bind (local_chain (local_postfixStep h he)
    (taking_postfixStep he) hsteps' rfl) (fun x => local_pure rfl) fun _ => .pure) fun _ => ?_
  exact (Steady.chain hsteps').bind fun _ => .pure

section Joined

variable {operand operand' : Reader Tree} (hop : Local σ n (Tree.moved σ.before) operand operand')
  (htaking : operand.Taking) (htaking' : operand'.Taking)

/-- Minus signs and the operand behind them take a token. -/
theorem taking_signs {operand : Reader Tree} (h : operand.Taking) : ∀ fuel, (signs operand fuel).Taking
  | 0 => h
  | fuel + 1 => h.either (Taking.rule (Taking.token.bind fun _ =>
      (taking_signs h fuel).steady.bind fun _ => .pure))

include hop htaking htaking' in
/-- Minus signs before an operand, if there is fuel for all tokens. -/
theorem local_signs : ∀ (fuel fuel' : ℕ), fuel ≤ fuel' →
    Local σ (min n (fuel + 1)) (Tree.moved σ.before) (signs operand fuel) (signs operand' fuel') := by
  intro fuel
  induction fuel with
  | zero =>
    intro fuel' _
    refine ⟨hop.steady, (taking_signs htaking' fuel').steady, fun c ho hc => ?_⟩
    exact htaking.embeds (taking_signs htaking' fuel') ho (List.length_eq_zero_iff.1 (by omega))
  | succ fuel ih =>
    intro fuel' hle
    obtain ⟨fuel', rfl⟩ := Nat.exists_eq_add_of_le' (Nat.le_trans (Nat.succ_le_succ (Nat.zero_le fuel)) hle)
    have hsigns := ih fuel' (Nat.le_of_succ_le_succ hle)
    have hminus : Local σ (min n (fuel + 1) + 1) (Tree.moved σ.before)
        (rule .arithmeticExpression do
          let minus ← token [.minus]
          return [minus, ← signs operand fuel])
        (rule .arithmeticExpression do
          let minus ← token [.minus]
          return [minus, ← signs operand' fuel']) := by
      refine Local.rule (local_token_bind (fun minus => hsigns.bind (fun _ => local_pure rfl) fun _ => .pure)
        fun _ => hsigns.steady'.bind fun _ => .pure) (Taking.token.bind fun _ => ?_)
      exact hsigns.steady.bind fun _ => .pure
    exact (hop.mono (Nat.min_le_left _ _)).either (hminus.mono (by omega))

include hop in
/-- Operands that are joined from left to right. -/
theorem local_joined {rule : Rule} {parts parts' : Reader (List Tree)}
    (h : Local σ n (List.map (Tree.moved σ.before)) parts parts') (hparts : parts.Taking) :
    Local σ n (Tree.moved σ.before)
      (do
        let first ← operand
        chain (fun left => extend rule left parts) first)
      (do
        let first ← operand'
        chain (fun left => extend rule left parts') first) := by
  refine hop.bind (fun first => local_chain (fun left => h.extend) (fun _ => hparts.extend)
    (fun _ => h.steady'.extend) rfl) fun _ => .chain fun _ => h.steady'.extend

include hop in
theorem local_leftJoined (operators : List Terminal) :
    Local σ n (Tree.moved σ.before) (leftJoined operand operators) (leftJoined operand' operators) := by
  refine local_joined hop (Local.weaken (local_token_bind (fun op => hop.bind (fun _ => local_pure rfl)
    fun _ => .pure) fun _ => ?_)) (Taking.token.bind fun _ => ?_)
  · exact hop.steady'.bind fun _ => .pure
  · exact hop.steady.bind fun _ => .pure

include hop in
theorem local_wordJoined (k : Keyword) (r : Rule) :
    Local σ n (Tree.moved σ.before) (wordJoined operand k r) (wordJoined operand' k r) := by
  refine local_joined hop (Local.weaken (local_skip_bind (hop.bind (fun _ => local_pure rfl)
    fun _ => .pure))) (Taking.skip.bind fun _ => ?_)
  exact hop.steady.bind fun _ => .pure

end Joined

include h he he' in
theorem local_unaryLevel : Local σ (n + 1) (Tree.moved σ.before) (unaryLevel e) (unaryLevel e') := by
  have hsigns := local_signs (local_postfixLevel h he he') (taking_of_tells (yields_postfixLevel he))
    (taking_of_tells (yields_postfixLevel he'))
  refine ⟨fun c => (hsigns c.rest.length _ le_rfl).steady c,
    fun c => (hsigns c.rest.length _ le_rfl).steady' c, fun c ho hc => ?_⟩
  refine (hsigns c.rest.length (c.within σ).rest.length ?_).embeds c ho (by omega)
  rw [Cursor.within_rest, List.length_append, List.length_map]
  exact Nat.le_add_right _ _

include h he he' in
theorem local_sumLevel : Local σ (n + 1) (Tree.moved σ.before) (sumLevel e) (sumLevel e') :=
  local_leftJoined (local_leftJoined (local_leftJoined (local_unaryLevel h he he') _) _) _

include h he he' in
theorem local_instanceLevel :
    Local σ (n + 1) (Tree.moved σ.before) (instanceLevel e) (instanceLevel e') := by
  have htype : Local σ n (Tree.moved σ.before) (rule .type (do return [← token [.identifier]]))
      (rule .type (do return [← token [.identifier]])) :=
    Local.weaken (Local.rule (local_token_bind (fun _ => local_pure rfl) fun _ => .pure)
      (Taking.token.bind fun _ => .pure))
  have hparts : Local σ (n + 2) (List.map (Tree.moved σ.before))
      (do
        keyword .instanceWord
        keyword .ofWord
        return [← rule .type (do return [← token [.identifier]])])
      (do
        keyword .instanceWord
        keyword .ofWord
        return [← rule .type (do return [← token [.identifier]])]) :=
    local_skip_bind (local_skip_bind (htype.bind (fun _ => local_pure rfl) fun _ => .pure))
  refine local_joined (local_sumLevel h he he') hparts.weaken (Taking.skip.bind fun _ => ?_)
  exact Steady.skip.bind fun _ => htype.steady.bind fun _ => .pure

/-! ## Tests and comparisons -/

include h he he' in
theorem local_simpleTest : Local σ (n + 1) (Tree.moved σ.before) (simpleTest e) (simpleTest e') := by
  have hsum := local_sumLevel h he he'
  refine Local.weaken (Local.rule (local_token_bind (fun op => hsum.bind (fun _ => local_pure rfl)
    fun _ => .pure) fun _ => ?_) (Taking.token.bind fun _ => ?_))
  · exact hsum.steady'.bind fun _ => .pure
  · exact hsum.steady.bind fun _ => .pure

include h he he' in
/-- A test, by comparison or by an expression. -/
theorem local_test : Local σ n (Tree.moved σ.before) (either (simpleTest e) e) (either (simpleTest e') e') :=
  (local_simpleTest h he he').weaken.either h

include h he he' in
theorem local_tests : Local σ n (Tree.moved σ.before) (tests e) (tests e') := by
  have htest := local_test h he he'
  refine htest.separated.rule (Taking.bind ?_ fun _ => .chain fun _ => ?_)
  · exact (taking_of_tells (yields_simpleTest he)).either (taking_of_tells he)
  · exact Steady.skip.bind fun _ => htest.steady.bind fun _ => .pure

include h he he' in
theorem local_comparisonRest :
    Local σ (n + 1) (List.map (Tree.moved σ.before)) (comparisonRest e) (comparisonRest e') := by
  have hlevel := local_instanceLevel h he he'
  have hshort := hlevel.weaken
  have htests := local_tests h he he'
  have hside : Local σ n (Tree.moved σ.before) (either (simpleTest e) (instanceLevel e))
      (either (simpleTest e') (instanceLevel e')) :=
    (local_simpleTest h he he').weaken.either hshort
  refine local_oneOf_cons ?_ (local_oneOf_cons ?_ (local_oneOf_cons ?_ local_oneOf_nil))
  · refine local_token_bind (fun op => hshort.bind (fun _ => local_pure rfl) fun _ => .pure) fun _ => ?_
    exact hlevel.steady'.bind fun _ => .pure
  · refine local_token_bind (fun between => hshort.bind (fun low => Local.weaken (local_token_bind
      (fun and => hshort.bind (fun _ => local_pure rfl) fun _ => .pure) fun _ => ?_)) fun _ => ?_)
      fun _ => ?_
    · exact hlevel.steady'.bind fun _ => .pure
    · exact Steady.token.bind fun _ => hlevel.steady'.bind fun _ => .pure
    · exact hlevel.steady'.bind fun _ => Steady.token.bind fun _ => hlevel.steady'.bind fun _ => .pure
  · have hlist : ∀ word : Tree, Local σ n (List.map (Tree.moved σ.before))
        (do
          let opening ← token [.leftParen]
          let ts ← tests e
          return [word, opening, ts, ← token [.rightParen]])
        (do
          let opening ← token [.leftParen]
          let ts ← tests e'
          return [word.moved σ.before, opening, ts, ← token [.rightParen]]) := by
      intro word
      refine Local.weaken (local_token_bind (fun opening => htests.bind (fun ts => Local.bind
        (local_token _) (fun _ => local_pure rfl) fun _ => .pure) fun _ => ?_) fun _ => ?_)
      · exact Steady.token.bind fun _ => .pure
      · exact htests.steady'.bind fun _ => Steady.token.bind fun _ => .pure
    refine local_token_bind (fun word => Local.either (hside.bind (fun _ => local_pure rfl) fun _ => .pure)
      (hlist word)) fun word => ?_
    refine Steady.either (hside.steady'.bind fun _ => .pure) (Steady.token.bind fun _ => ?_)
    exact htests.steady'.bind fun _ => Steady.token.bind fun _ => .pure

include h he he' in
theorem local_comparisonLevel :
    Local σ (n + 1) (Tree.moved σ.before) (comparisonLevel e) (comparisonLevel e') := by
  have hrest := local_comparisonRest h he he'
  exact (local_instanceLevel h he he').fork (fun _ => local_pure rfl) (fun left => hrest.extend)
    (fun _ => .pure) fun _ => hrest.steady'.extend

include h he he' in
theorem local_orLevel : Local σ (n + 1) (Tree.moved σ.before) (orLevel e) (orLevel e') :=
  local_wordJoined (local_wordJoined (local_comparisonLevel h he he') _ _) _ _

/-! ## Loops and choices -/

include h he in
theorem local_iterationContext :
    Local σ n (Tree.moved σ.before) (iterationContext e) (iterationContext e') := by
  refine Local.rule (h.fork (fun first => Local.weaken (local_skip_bind (h.bind (fun _ => local_pure rfl)
    fun _ => .pure))) (fun _ => local_pure rfl) (fun _ => ?_) fun _ => .pure)
    ((taking_of_tells he).fork (fun _ => ?_) fun _ => .pure)
  · exact Steady.skip.bind fun _ => h.steady'.bind fun _ => .pure
  · exact Steady.skip.bind fun _ => h.steady.bind fun _ => .pure

include h he in
theorem local_inExpressions :
    Local σ n (Tree.moved σ.before) (inExpressions e) (inExpressions e') := by
  have hcontext := local_iterationContext h he
  have hbinding : Local σ (n + 2) (Tree.moved σ.before) (inExpression e) (inExpression e') := by
    refine Local.rule (local_token_bind (fun name => local_skip_bind (hcontext.bind
      (fun _ => local_pure rfl) fun _ => .pure)) fun _ => ?_) (Taking.token.bind fun _ => ?_)
    · exact Steady.skip.bind fun _ => hcontext.steady'.bind fun _ => .pure
    · exact Steady.skip.bind fun _ => hcontext.steady.bind fun _ => .pure
  have htaking : (inExpression e).Taking := Taking.rule (Taking.token.bind fun _ =>
    Steady.skip.bind fun _ => hcontext.steady.bind fun _ => .pure)
  refine (hbinding.mono (Nat.le_add_right n 2)).separated.rule (htaking.bind fun _ => .chain fun _ => ?_)
  exact Steady.skip.bind fun _ => hbinding.steady.bind fun _ => .pure

include h he in
/-- A loop or a quantifier behind its first word. -/
theorem local_bound {k : Keyword} (words : List Tree) :
    Local σ n (List.map (Tree.moved σ.before))
      (do
        let bindings ← inExpressions e
        keyword k
        return words ++ [bindings, ← e])
      (do
        let bindings ← inExpressions e'
        keyword k
        return words.map (Tree.moved σ.before) ++ [bindings, ← e']) := by
  refine (local_inExpressions h he).bind (fun bindings => Local.weaken (local_skip_bind (h.bind
    (fun _ => local_pure ?_) fun _ => .pure))) fun _ => ?_
  · rw [List.map_append]
    rfl
  · exact Steady.skip.bind fun _ => h.steady'.bind fun _ => .pure

include h he in
theorem local_forExpression :
    Local σ (n + 1) (Tree.moved σ.before) (forExpression e) (forExpression e') :=
  Local.rule (local_skip_bind (local_bound h he []))
    (Taking.skip.bind fun _ => (local_bound h he []).steady)

include h he in
theorem local_quantifiedExpression :
    Local σ (n + 1) (Tree.moved σ.before) (quantifiedExpression e) (quantifiedExpression e') := by
  have hbindings := local_inExpressions h he
  refine Local.rule (local_token_bind (fun quantifier => local_bound h he [quantifier]) fun _ => ?_)
    (Taking.token.bind fun _ => ?_)
  · exact hbindings.steady'.bind fun _ => Steady.skip.bind fun _ => h.steady'.bind fun _ => .pure
  · exact hbindings.steady.bind fun _ => Steady.skip.bind fun _ => h.steady.bind fun _ => .pure

include h in
theorem local_ifExpression :
    Local σ (n + 1) (Tree.moved σ.before) (ifExpression e) (ifExpression e') := by
  have hchosen : Local σ (n + 1) (List.map (Tree.moved σ.before))
      (do
        keyword .ifWord
        let condition ← e
        keyword .thenWord
        return [condition, ← e])
      (do
        keyword .ifWord
        let condition ← e'
        keyword .thenWord
        return [condition, ← e']) := by
    refine local_skip_bind (h.bind (fun condition => Local.weaken (local_skip_bind (h.bind
      (fun _ => local_pure rfl) fun _ => .pure))) fun _ => ?_)
    exact Steady.skip.bind fun _ => h.steady'.bind fun _ => .pure
  have hotherwise : ∀ parts : List Tree, Local σ (n + 1) (List.map (Tree.moved σ.before))
      (do
        keyword .elseWord
        return parts ++ [← e])
      (do
        keyword .elseWord
        return parts.map (Tree.moved σ.before) ++ [← e']) := by
    intro parts
    refine local_skip_bind (h.bind (fun _ => local_pure ?_) fun _ => .pure)
    rw [List.map_append]
    rfl
  refine Local.rule (hchosen.fork hotherwise (fun _ => local_pure rfl) (fun _ => ?_) fun _ => .pure) ?_
  · exact Steady.skip.bind fun _ => h.steady'.bind fun _ => .pure
  · refine Taking.fork (Taking.skip.bind fun _ => h.steady.bind fun _ => Steady.skip.bind fun _ =>
      h.steady.bind fun _ => .pure) (fun parts => (hotherwise parts).steady) fun _ => .pure

include h he he' in
/-- A level above expressions that are read alike is read alike, with one token more. -/
theorem local_expressionLevel :
    Local σ (n + 1) (Tree.moved σ.before) (expressionLevel e) (expressionLevel e') :=
  local_oneOf_cons (local_forExpression h he) (local_oneOf_cons (local_quantifiedExpression h he)
    (local_oneOf_cons (local_ifExpression h) (local_oneOf_cons (local_orLevel h he he') local_oneOf_nil)))

end Expressions

/-- **Expressions are read alike in a longer row of tokens**, if they may be nested as deep as there are
tokens. -/
theorem local_expression : ∀ {n k : ℕ}, n ≤ k →
    Local σ n (Tree.moved σ.before) (expression n) (expression k) := by
  intro n
  induction n with
  | zero =>
    exact fun _ => ⟨(yields_expression 0).steady, (yields_expression _).steady, fun _ _ hc => absurd hc (Nat.not_lt_zero _)⟩
  | succ n ih =>
    intro k hle
    obtain ⟨k, rfl⟩ := Nat.exists_eq_add_of_le' (Nat.le_trans (Nat.succ_le_succ (Nat.zero_le n)) hle)
    exact local_expressionLevel (ih (Nat.le_of_succ_le_succ hle)) (yields_expression n) (yields_expression k)

end Grammar

end Criterion

import Criterion.Proofs.Brackets
import Criterion.Proofs.Spans
import Criterion.Proofs.Whole
import Criterion.Proofs.Wrapping

/-!
# Tests in parentheses

Behind a name and the word `in`, tests in parentheses are read as the tests alone are, moved. One operand may
also be an expression in parentheses, and this reading goes before; of several tests it can only be an interval,
from the first parenthesis on, if the first test is one.

* `Tree.isPlainTest`: tests by comparison, intervals, numbers and texts.
* `Tree.listsTests`: whether what stands behind `in` is a list of tests.
* `parse_membership`: **the tree of a membership** is that of its tests, behind a name and `in`.
-/

namespace Criterion

open Reader Readings

/-! ## What derives -/

section Derivations

variable {keeps : Bool} {body : List Symbol} {n : Nonterminal} {w : List Lexeme} {t : Tree} {ts : List Tree}

/-- A body that leaves one tree leaves one that comes of all its tokens. -/
theorem Derives.single_comesOf (h : Derives keeps body w ts) (hbody : Symbol.isSingle body = true) :
    ∃ t, ts = [t] ∧ t.ComesOf w := by
  induction h with
  | nil | kept | dropped | absent | present | done | again => cases hbody
  | @named _ _ rest l _ _ _ hd _ =>
    cases rest with
    | cons => cases hbody
    | nil =>
      cases hd
      exact ⟨_, rfl, .token l⟩
  | @rule _ n p rest v _ us _ hp hd hrest ih _ =>
    cases rest with
    | cons => cases hbody
    | nil =>
      cases hrest
      rw [List.append_nil, List.append_nil]
      cases hr : n.nodeOf? p with
      | none =>
        rw [Nonterminal.shape_of_none hp hr hd]
        exact ih (n.isSingle_of_none p hp hr)
      | some rule =>
        rw [Nonterminal.shape_of_some hr]
        exact ⟨_, rfl, .node hp hr hd⟩

theorem Nonterminal.Tells.comesOf (h : n.Tells w t) (hn : n.isInlined = false) : t.ComesOf w := by
  have hd : Derives false [.rule n] w [t] := h.derives_last
  obtain ⟨u, hu, hcomes⟩ := hd.single_comesOf (by simp [Symbol.isSingle, hn])
  cases hu
  exact hcomes

/-- Only one rule leaves tests by comparison. -/
theorem rule_of_simpleTest (n : Nonterminal) : ∀ p ∈ n.productions,
    n.nodeOf? p = some .simplePositiveUnaryTest → n = .simplePositiveUnaryTest := by
  cases n <;> decide

/-- A test by comparison begins with its operator. -/
theorem Tree.ComesOf.relation {span : Option Span} {children : List Tree}
    (h : Tree.ComesOf (.node .simplePositiveUnaryTest span children) w) :
    ∃ l ∈ w.head?, l.kind ∈ relationKinds := by
  cases h with
  | @node n p _ _ _ hp hr hd =>
    obtain rfl := rule_of_simpleTest n p hp hr
    have hbegins : Begins relationKinds Nonterminal.simplePositiveUnaryTest.language := by
      rw [language_single rfl]
      simp only [Nonterminal.plain, Symbol.languages_cons, Symbol.language]
      rw [language_token (n := .compareOp) rfl rfl]
      exact begins_tokenOf_mul (List.Subset.refl _) _
    exact hbegins w ⟨_, p, hp, _, hd, rfl⟩

mutual

/-- Whether no token that a symbol stands for is the word `not`. -/
def Symbol.withoutNot : Symbol → Bool
  | .named kinds | .text kinds => .keyword .notWord ∉ kinds
  | .rule n => n ≠ .unaryTests
  | .many body | .optional body => Symbol.allWithoutNot body

/-- Whether no token that some symbols stand for is the word `not`. -/
def Symbol.allWithoutNot : List Symbol → Bool
  | [] => true
  | s :: rest => Symbol.withoutNot s && Symbol.allWithoutNot rest

end

theorem Symbol.allWithoutNot_append (a b : List Symbol) :
    Symbol.allWithoutNot (a ++ b) = (Symbol.allWithoutNot a && Symbol.allWithoutNot b) := by
  induction a with
  | nil => rfl
  | cons s a ih => rw [List.cons_append, Symbol.allWithoutNot, ih, Symbol.allWithoutNot, Bool.and_assoc]

theorem productions_withoutNot (n : Nonterminal) : decide (n ≠ .unaryTests) = true →
    ∀ p ∈ n.productions, Symbol.allWithoutNot p.body = true := by
  cases n <;> decide

/-- The word `not` stands before lists of tests only. -/
theorem Derives.withoutNot (h : Derives keeps body w ts) (hbody : Symbol.allWithoutNot body = true) :
    ∀ l ∈ w, l.kind ≠ .keyword .notWord := by
  induction h with
  | nil => exact List.forall_mem_nil _
  | named hl _ ih | kept hl _ ih | dropped hl _ ih =>
    obtain ⟨hfirst, hrest⟩ := Bool.and_eq_true_iff.1 hbody
    refine List.forall_mem_cons.2 ⟨?_, ih hrest⟩
    intro hkind
    rw [hkind] at hl
    exact of_decide_eq_true hfirst hl
  | rule hp _ _ ihbody ih =>
    obtain ⟨hfirst, hrest⟩ := Bool.and_eq_true_iff.1 hbody
    exact List.forall_mem_append.2 ⟨ihbody (productions_withoutNot _ hfirst _ hp), ih hrest⟩
  | absent _ ih | done _ ih => exact ih (Bool.and_eq_true_iff.1 hbody).2
  | present _ ih | again _ ih =>
    refine ih ?_
    rw [Symbol.allWithoutNot_append, Bool.and_eq_true_iff]
    obtain ⟨hinner, hrest⟩ := Bool.and_eq_true_iff.1 hbody
    first
      | exact ⟨hinner, hrest⟩
      | exact ⟨hinner, hbody⟩

end Derivations

/-! ## Tests -/

/-- Whether a test is one by comparison, an interval, a number or a text in quotes. -/
def Tree.isPlainTest : Tree → Bool
  | .node .simplePositiveUnaryTest _ _ | .node .interval _ _ => true
  | .token k => k.kind = .number ∨ k.kind = .string
  | _ => false

def Tree.isInterval : Tree → Bool
  | .node .interval _ _ => true
  | _ => false

/-- Whether a source is one comparison, with a list of tests in parentheses behind its word. -/
def Tree.listsTests : Tree → Bool
  | .node .expressions _ [.node .comparison _ [_, _, _, .node .positiveUnaryTests _ _, _]] => true
  | _ => false

/-- The tree of the membership of a name's value in tests: behind the word `in` stands the list of them in
parentheses, or the only one as an expression in parentheses. -/
inductive Tree.IsMembership (name : String) (us : List Tree) : Tree → Prop where
  | listed {s₁ s₂ s₃ s₄ s₅ s₆ : Option Span} {opening closing : Token} : opening.kind = .leftParen →
    closing.kind = .rightParen → IsMembership name us (.node .expressions s₁ [.node .comparison s₂
      [.node .qualifiedName s₃ [.token ⟨.identifier, name, s₄⟩], .token ⟨.keyword .inWord, "in", s₅⟩,
        .token opening, .node .positiveUnaryTests s₆ us, .token closing]])
  | single {s₁ s₂ s₃ s₄ s₅ s₆ : Option Span} {u : Tree} : us = [u] →
    IsMembership name us (.node .expressions s₁ [.node .comparison s₂
      [.node .qualifiedName s₃ [.token ⟨.identifier, name, s₄⟩], .token ⟨.keyword .inWord, "in", s₅⟩,
        .node .parenthesizedExpression s₆ [u]]])

/-- The first of some items: the only one, or one before a comma. -/
theorem Reader.separated_first {item : Reader Tree} {c d : Cursor} {us : List Tree}
    (hitem : item.Steady) (h : (us, d) ∈ (separated item c).found) :
    ∃ u more x, us = u :: more ∧ (u, x) ∈ (item c).found ∧
      (more = [] ∧ x = d ∨ more ≠ [] ∧ ∃ l ∈ x.rest.head?, l.kind = .comma) := by
  obtain ⟨⟨first, x⟩, hfirst, hchain⟩ := of_mem_bind h
  -- each further item stands behind the first one and a comma
  let Grown (w : List Lexeme) (items : List Tree) : Prop :=
    w = [] ∧ items = [first] ∨ ∃ more, more ≠ [] ∧ items = first :: more ∧ ∃ l ∈ w.head?, l.kind = .comma
  have hgrown : (chain (itemStep item) [first]).Yields fun w items => Grown ([] ++ w) items := by
    refine yields_chain (fun w items hitems => ?_) (.inl ⟨rfl, rfl⟩)
    refine yields_skip_bind fun l hl => Yields.bind hitem fun v next _ => yields_pure (.inr ?_)
    rcases hitems with ⟨rfl, rfl⟩ | ⟨more, -, rfl, k, hk, hkind⟩
    · exact ⟨[next], List.cons_ne_nil _ _, rfl, l, rfl, List.mem_singleton.1 hl⟩
    · refine ⟨more ++ [next], by simp, rfl, k, ?_, hkind⟩
      rw [List.head?_append, hk]
      rfl
  obtain ⟨w, hw, hitems⟩ := (hgrown x).spans _ hchain
  rcases hitems with ⟨rfl, rfl⟩ | ⟨more, hmore, rfl, l, hl, hkind⟩
  · have hd : d = x := by
      obtain ⟨stop, rest⟩ := d
      obtain ⟨stop', rest'⟩ := x
      have hrest : rest' = rest := hw.rest
      have hstop : stop = stop' := hw.stop
      rw [hrest, hstop]
    exact ⟨first, [], x, rfl, hfirst, .inl ⟨rfl, hd.symm⟩⟩
  · refine ⟨first, more, x, rfl, hfirst, .inr ⟨hmore, l, ?_, hkind⟩⟩
    have hrest : x.rest = w ++ d.rest := hw.rest
    have hl : w.head? = some l := hl
    rw [hrest, List.head?_append, hl]
    rfl

namespace Grammar

variable {e e' : Reader Tree} {c d : Cursor} {l : Lexeme} {rest : List Lexeme} {t u : Tree} {us : List Tree}

/-! ## Where tokens decide -/

/-- No reader of a primary expression behind these starts with another token. -/
theorem others_blocked_at
    (hc : ∀ l ∈ c.rest.head?, l.kind ∉ [Terminal.rightBracket, .question, .specialName, .dateAndTime]) :
    ∀ r ∈ [reversed e, rule .inputValue (do skip .question; return []),
      rule .specialFunctionName (do return [← token [.specialName]]),
      rule .dateTimeConstructor (do
        let name ← token [.dateAndTime]
        return [name, ← parameters e])], r.Blocked c := by
  have htoken : ∀ {k : Terminal}, k ∈ [Terminal.rightBracket, .question, .specialName, .dateAndTime] →
      (token [k]).Blocked c := by
    intro k hk
    refine blocked_token fun l hl hkind => hc l hl ?_
    rwa [List.mem_singleton.1 hkind]
  intro r hr
  simp only [List.mem_cons, List.not_mem_nil, or_false] at hr
  rcases hr with rfl | rfl | rfl | rfl
  · exact ((htoken (by decide)).bind _).node
  · exact (((htoken (by decide)).bind _).bind _).rule _
  · exact ((htoken (by decide)).bind _).rule _
  · exact ((htoken (by decide)).bind _).rule _

/-- **A literal is the only reading before a token that ends one.** -/
theorem sole_literal (hc : c.rest = l :: rest) (hl : l.kind ∈ literalTokens)
    (hrest : Cursor.HeadIn ⟨l.stop, rest⟩ closers) (n : ℕ) :
    (expression (n + 1)).Sole c (.token l.token) ⟨l.stop, rest⟩ := by
  have hhead : c.HeadIn literalTokens := Cursor.headIn_of_rest hc hl
  have hprimary : (primary (expression n)).Sole c (.token l.token) ⟨l.stop, rest⟩ := by
    refine Sole.oneOf [] _ (sole_token hc hl) (List.forall_mem_nil _) fun r hr => ?_
    rcases List.mem_cons.1 hr with rfl | hr
    · exact bracketed_blocked (avoids_one hhead (by decide))
    rcases List.mem_cons.1 hr with rfl | hr
    · exact context_blocked (avoids_one hhead (by decide))
    rcases List.mem_cons.1 hr with rfl | hr
    · have hparen : (token [.leftParen]).Blocked c := blocked_token (avoids hhead (by decide))
      exact (hparen.bind _).node
    · exact others_blocked_at (avoids hhead (by decide)) r hr
  exact sole_expression hprimary (fun k hk => List.mem_append_left _ (hhead k hk)) hrest

/-- The tokens that go on behind a name as one operand. -/
def nameTails : List Terminal := [.dot, .leftBracket, .leftParen]

/-- **A name is one operand** before a token that does not go on with it. -/
theorem sole_name_operand (he : e.Yields Nonterminal.expression.Tells) (hc : c.rest = l :: rest)
    (hl : l.kind = .identifier) (hrest : ∀ k ∈ rest.head?, k.kind ∉ nameTails) :
    ∃ span, (unaryLevel e).Sole c (.node .qualifiedName span [.token l.token]) ⟨l.stop, rest⟩ := by
  have hhead : c.HeadIn [.identifier] := Cursor.headIn_of_rest hc (List.mem_singleton.2 hl)
  have hdot : (skip .dot).Blocked ⟨l.stop, rest⟩ :=
    blocked_skip fun k hk hkind => hrest k hk (by rw [hkind]; decide)
  have htoken : (token [.identifier]).Sole c (.token l.token) ⟨l.stop, rest⟩ :=
    sole_token hc (List.mem_singleton.2 hl)
  have hparts : (do
      let first ← token [.identifier]
      chain (fun names => do
        skip .dot
        let next ← token [.identifier]
        return names ++ [next]) [first] : Reader (List Tree)).Sole c [.token l.token] ⟨l.stop, rest⟩ :=
    htoken.bind (sole_chain (hdot.bind _))
  obtain ⟨span, hname⟩ := Sole.rule .qualifiedName hparts
  have hprimary : (primary e).Blocked c := primary_blocked_at he (avoids hhead (by decide))
  have hfirst : (either (do return (← qualifiedName, true))
      (do return (← primary e, false)) : Reader (Tree × Bool)).Sole c
        (.node .qualifiedName span [.token l.token], true) ⟨l.stop, rest⟩ :=
    Sole.either_left (Sole.bind hname (sole_pure _ _)) (hprimary.bind _)
  have hstep : (postfixStep e (.node .qualifiedName span [.token l.token], true)).Blocked
      ⟨l.stop, rest⟩ :=
    postfixStep_blocked (fun k hk hkind => hrest k hk (List.mem_cons_of_mem _ hkind)) (.inl rfl)
  have hpostfix : (postfixLevel e).Sole c (.node .qualifiedName span [.token l.token]) ⟨l.stop, rest⟩ :=
    hfirst.bind ((sole_chain hstep).bind (sole_pure _ _))
  exact ⟨span, sole_signs hpostfix (avoids_one hhead (by decide)) _⟩

/-- The tokens that go on behind a name within a comparison. -/
def operandTails : List Terminal :=
  nameTails ++ [.power, .star, .slash, .plus, .minus, .keyword .instanceWord]

/-- **A name before a comparison operator or the word `in` is one operand** of a comparison. -/
theorem sole_name (he : e.Yields Nonterminal.expression.Tells) (hc : c.rest = l :: rest)
    (hl : l.kind = .identifier) (hrest : ∀ k ∈ rest.head?, k.kind ∉ operandTails) :
    ∃ span, (instanceLevel e).Sole c (.node .qualifiedName span [.token l.token]) ⟨l.stop, rest⟩ := by
  have hnone : ∀ {kinds : List Terminal}, kinds ⊆ operandTails → ∀ k ∈ rest.head?, k.kind ∉ kinds :=
    fun hkinds k hk hkind => hrest k hk (hkinds hkind)
  obtain ⟨span, hunary⟩ := sole_name_operand he hc hl (hnone (List.subset_append_left _ _))
  have hsum : (sumLevel e).Sole c (.node .qualifiedName span [.token l.token]) ⟨l.stop, rest⟩ :=
    sole_leftJoined (sole_leftJoined (sole_leftJoined hunary (hnone (by decide))) (hnone (by decide)))
      (hnone (by decide))
  have hinstance : (skip (.keyword .instanceWord)).Blocked ⟨l.stop, rest⟩ :=
    blocked_skip fun k hk hkind => hrest k hk (by rw [hkind]; decide)
  exact ⟨span, hsum.chained ((hinstance.bind _).extend _ _)⟩

/-- **No expression starts with a comparison operator.** -/
theorem expression_blocked_at_relation (hc : c.rest = l :: rest) (hl : l.kind ∈ relationKinds) (n : ℕ) :
    (expression n).Blocked c := by
  refine List.eq_nil_iff_forall_not_mem.2 fun y hy => ?_
  obtain ⟨v, hv, ht⟩ := (yields_expression n c).spans y hy
  have hderives : Derives false [.rule .expression] v [y.1] := ht.derives_last
  obtain ⟨k, hk, hkind⟩ := hderives.starts_plain rfl
  have hsame : c.rest.head? = some k := by
    rw [hv.rest, List.head?_append, hk]
    rfl
  rw [hc] at hsame
  cases hsame
  exact hkind hl

/-- An expression in parentheses needs one within that ends before a parenthesis or before two dots. -/
theorem parenthesized_blocked (hc : c.rest = l :: rest) (hl : l.kind = .leftParen)
    (h : ∀ y ∈ (e ⟨l.stop, rest⟩).found, ∀ k ∈ y.2.rest.head?, k.kind ∉ [Terminal.dots, .rightParen]) :
    (parenthesized e).Blocked c := by
  refine Blocked.node ((sole_token hc (List.mem_singleton.2 hl)).bind_blocked (blocked_bind fun y hy => ?_))
  have hdots : ∀ k ∈ y.2.rest.head?, k.kind ≠ .dots := fun k hk hkind => h y hy k hk (by simp [hkind])
  have hparen : ∀ k ∈ y.2.rest.head?, k.kind ≠ .rightParen := fun k hk hkind =>
    h y hy k hk (by simp [hkind])
  exact (interval_blocked hdots _ _).either ((blocked_skip hparen).bind _)

/-! ## Tests alone -/

/-- **Plain tests are read by the rule of tests.** -/
theorem all?_tests (he : e.Yields Nonterminal.expression.Tells) (h : (unaryTests e).all? c = some t)
    (ht : t.tests? = some (false, us)) (hplain : ∀ u ∈ us, u.isPlainTest = true) :
    ∃ span, (tests e).all? c = some (.node .positiveUnaryTests span us) := by
  unfold unaryTests at h
  rw [all?_rule] at h
  obtain ⟨children, hchildren, rfl⟩ := Option.map_eq_some_iff.1 h
  obtain ⟨span, rfl⟩ : ∃ span, children = [.node .positiveUnaryTests span us] := by
    unfold Tree.tests? at ht
    split at ht
    · rename_i hnode
      cases ht
      cases hnode
      exact ⟨_, rfl⟩
    · cases ht
    · cases ht
      have hwildcard := hplain _ List.mem_cons_self
      cases hwildcard
    · cases ht
  refine ⟨span, ?_⟩
  -- the other ways leave other trees
  have hothers : (oneOf [
      (do
        let word ← token [.keyword .notWord]
        let opening ← token [.leftParen]
        let ts ← tests e
        return [word, opening, ts, ← token [.rightParen]]),
      (do return [← rule .wildcard (do return [← token [.minus]])])] : Reader (List Tree)).Yields
        fun _ ts => ts ≠ [.node .positiveUnaryTests span us] := by
    refine yields_oneOf (List.forall_mem_cons.2 ⟨?_, List.forall_mem_singleton.2 ?_⟩)
    · refine yields_token_bind fun _ _ => yields_token_bind fun _ _ => (yields_tests he).bind fun _ _ _ =>
        yields_token_bind fun _ _ => yields_pure ?_
      exact fun hlist => absurd (congrArg List.length hlist) (by simp)
    · have hminus : (do return [← token [.minus]] : Reader (List Tree)).Yields fun w _ => w ≠ [] :=
        yields_token_bind fun l _ => yields_pure (List.cons_ne_nil l _)
      refine (yields_rule hminus fun _ _ hw => hw).bind fun _ u hu => yields_pure ?_
      rintro hlist
      obtain ⟨ts, -, rfl⟩ := hu
      cases hlist
  have hfirst : (oneOf _ : Reader (List Tree)).all? c = some [.node .positiveUnaryTests span us] := hchildren
  rw [oneOf, List.foldr_cons, all?_either (descending_read _ _ _), all?_map] at hfirst
  rcases Option.or_eq_some_iff.1 hfirst with hread | ⟨-, hread⟩
  · obtain ⟨u, hu, hlist⟩ := Option.map_eq_some_iff.1 hread
    cases hlist
    exact hu
  · obtain ⟨⟨ts, x⟩, hfind, rfl⟩ := Option.map_eq_some_iff.1 hread
    obtain ⟨-, -, hne⟩ := (hothers c).spans _ (List.mem_of_find?_eq_some hfind)
    exact absurd rfl hne

/-- A list of tests that uses all tokens. -/
theorem all?_items {span : Option Span} (h : (tests e).all? c = some (.node .positiveUnaryTests span us)) :
    (separated (either (simpleTest e) e)).all? c = some us := by
  unfold tests at h
  rw [all?_rule] at h
  obtain ⟨items, hitems, hnode⟩ := Option.map_eq_some_iff.1 h
  cases hnode
  exact hitems

/-! ## Behind the word `in` -/

/-- The list of tests in parentheses that can stand behind a word. -/
def listed (e : Reader Tree) (word : Tree) : Reader (List Tree) := do
  let opening ← token [.leftParen]
  let ts ← tests e
  return [word, opening, ts, ← token [.rightParen]]

/-- **Behind a comparison operator** an operand stands. -/
theorem all?_comparisonRest_relation (hc : c.rest = l :: rest) (hl : l.kind ∈ relationKinds) :
    (comparisonRest e).all? c = ((instanceLevel e).all? ⟨l.stop, rest⟩).map fun t => [.token l.token, t] := by
  have hhead : c.HeadIn relationKinds := Cursor.headIn_of_rest hc hl
  have hfound : (comparisonRest e c).found = ((token relationKinds >>= fun op => do
      return [op, ← instanceLevel e] : Reader (List Tree)) c).found := by
    refine found_oneOf [] [_, _] (descending_read _ _ _) (List.forall_mem_nil _) ?_
    refine List.forall_mem_cons.2 ⟨?_, List.forall_mem_singleton.2 ?_⟩
    · exact (blocked_token (avoids hhead (by decide))).bind _
    · exact (blocked_token (avoids hhead (by decide))).bind _
  rw [all?_congr hfound, all?_token hc hl (descending_read _ _ _), all?_map]

/-- **Behind `in`** a test by comparison goes before an operand, and both go before a list of tests. -/
theorem all?_comparisonRest_in (hc : c.rest = l :: rest) (hl : l.kind = .keyword .inWord) :
    (comparisonRest e).all? c = ((((simpleTest e).all? ⟨l.stop, rest⟩).or
      ((instanceLevel e).all? ⟨l.stop, rest⟩)).map fun t => [.token l.token, t]).or
        ((listed e (.token l.token)).all? ⟨l.stop, rest⟩) := by
  have hhead : c.HeadIn [.keyword .inWord] := Cursor.headIn_of_rest hc (List.mem_singleton.2 hl)
  let behind : Tree → Reader (List Tree) := fun word =>
    either (do return [word, ← either (simpleTest e) (instanceLevel e)]) (listed e word)
  have hfound : (comparisonRest e c).found = ((token [.keyword .inWord] >>= behind) c).found := by
    refine found_oneOf [_, _] [] (descending_read _ _ _) ?_ (List.forall_mem_nil _)
    refine List.forall_mem_cons.2 ⟨?_, List.forall_mem_singleton.2 ?_⟩
    · exact (blocked_token (avoids hhead (by decide))).bind _
    · exact (blocked_token (avoids hhead (by decide))).bind _
  have hdesc : Descending (simpleTest e ⟨l.stop, rest⟩).found := descending_rule _ _ _
  have hbehind : Descending (behind (.token l.token) ⟨l.stop, rest⟩).found :=
    descending_union (descending_read _ _ _) _
  rw [all?_congr hfound, all?_token hc (List.mem_singleton.2 hl) hbehind,
    all?_either (descending_read _ _ _), all?_map, all?_either hdesc]

/-- **Behind `in` and an opening parenthesis** an operand goes before a list of tests. -/
theorem all?_comparisonRest (hc : c.rest = l :: rest) (hl : l.kind = .keyword .inWord)
    (hrest : Cursor.HeadIn ⟨l.stop, rest⟩ [.leftParen]) : (comparisonRest e).all? c =
      (((instanceLevel e).all? ⟨l.stop, rest⟩).map fun t => [.token l.token, t]).or
        ((listed e (.token l.token)).all? ⟨l.stop, rest⟩) := by
  have hsimple : (simpleTest e).Blocked ⟨l.stop, rest⟩ := by
    have hrelation : relation.Blocked ⟨l.stop, rest⟩ := blocked_token (avoids hrest (by decide))
    exact (hrelation.bind _).rule _
  rw [all?_comparisonRest_in hc hl, hsimple.all?, Option.none_or]

section Within

variable {σ : Surroundings} {n : ℕ} {k : Lexeme}

/-- **A list of tests in parentheses** is the list that stands within. -/
theorem all?_listed (h : Local σ n (Tree.moved σ.before) (tests e) (tests e')) (hσ : σ.after = [k])
    (hk : k.kind = .rightParen) (ho : (c.within σ).Ordered) (hn : c.rest.length < n)
    (hd : d.rest = l :: (c.within σ).rest) (hl : l.kind = .leftParen) (hstop : l.stop = (c.within σ).stop)
    (ht : (tests e).all? c = some t) (word : Tree) :
    (listed e' word).all? d = some [word, .token l.token, t.moved σ.before, .token k.token] := by
  have hclosing : ∀ ts : Tree, (do return [word, .token l.token, ts, ← token [.rightParen]] :
      Reader (List Tree)).all? ⟨c.last + σ.before, [k]⟩ =
        some [word, .token l.token, ts, .token k.token] := by
    intro ts
    have htoken : (token [.rightParen]).Sole ⟨c.last + σ.before, [k]⟩ (.token k.token) ⟨k.stop, []⟩ :=
      sole_token rfl (List.mem_singleton.2 hk)
    exact Sole.all? (d := ⟨k.stop, []⟩) (htoken.bind (sole_pure _ _)) rfl
  have hinner := all?_closed (f := fun ts => do return [word, .token l.token, ts, ← token [.rightParen]]) h hσ
    (descending_rule _ _ _) ho hn ht (hclosing _) fun ts x hx => by
      refine (blocked_token fun j hj => ?_).bind _
      rw [hx] at hj
      cases hj
  unfold listed
  rw [all?_token hd (List.mem_singleton.2 hl) (descending_read _ _ _), hstop]
  exact hinner

/-- **An expression in parentheses** is the expression that stands within. -/
theorem all?_parenthesized (h : Local σ n (Tree.moved σ.before) e e') (hσ : σ.after = [k])
    (hk : k.kind = .rightParen) (hdesc : Descending (e c).found) (ho : (c.within σ).Ordered)
    (hn : c.rest.length < n) (hd : d.rest = l :: (c.within σ).rest) (hl : l.kind = .leftParen)
    (hstop : l.stop = (c.within σ).stop) (ht : e.all? c = some t) :
    ∃ span, (parenthesized e').all? d = some (.node .parenthesizedExpression span [t.moved σ.before]) := by
  let closed : Tree → Reader (Rule × List Tree) := fun first => either (intervalRest e' (.token l.token) first)
    (do skip .rightParen; return (Rule.parenthesizedExpression, [first]))
  have hclosing : ∀ first : Tree, (closed first).all? ⟨c.last + σ.before, [k]⟩ =
      some (.parenthesizedExpression, [first]) := by
    intro first
    have hdots : (intervalRest e' (.token l.token) first).Blocked ⟨c.last + σ.before, [k]⟩ := by
      refine interval_blocked (fun j hj => ?_) _ _
      cases hj
      rw [hk]
      decide
    have hdesc : Descending (intervalRest e' (.token l.token) first ⟨c.last + σ.before, [k]⟩).found :=
      descending_read _ _ _
    have hskip : (skip .rightParen).Sole ⟨c.last + σ.before, [k]⟩ () ⟨k.stop, []⟩ := sole_skip rfl hk
    rw [all?_either hdesc, hdots.all?, Option.none_or]
    exact Sole.all? (d := ⟨k.stop, []⟩) (hskip.bind (sole_pure _ _)) rfl
  have hinner := all?_closed (f := closed) h hσ hdesc ho hn ht (hclosing _) fun first x hx => by
    have hnone : ∀ {kind : Terminal}, ∀ j ∈ x.rest.head?, j.kind ≠ kind := by
      intro kind j hj
      rw [hx] at hj
      cases hj
    exact (interval_blocked hnone _ _).either ((blocked_skip hnone).bind _)
  unfold parenthesized
  rw [all?_node, all?_token hd (List.mem_singleton.2 hl) (descending_read _ _ _), hstop]
  exact ⟨_, congrArg (Option.map _) hinner⟩

/-- No operand stands in parentheses if no expression within ends before a parenthesis or before two dots. -/
theorem no_operand (hd : d.rest = l :: rest) (hl : l.kind = .leftParen)
    (h : ∀ y ∈ (e ⟨l.stop, rest⟩).found, ∀ k ∈ y.2.rest.head?, k.kind ∉ [Terminal.dots, .rightParen]) :
    (instanceLevel e).all? d = Option.none := by
  have hhead : d.HeadIn [.leftParen] := Cursor.headIn_of_rest hd (List.mem_singleton.2 hl)
  have hprimary : (primary e).Blocked d := (primary_found hhead).trans (parenthesized_blocked hd hl h)
  exact (instanceLevel_blocked hprimary (avoids hhead (by decide))).all?

theorem no_operand_at_relation {j : Lexeme} (hd : d.rest = l :: j :: rest) (hl : l.kind = .leftParen)
    (hj : j.kind ∈ relationKinds) (m : ℕ) : (instanceLevel (expression m)).all? d = Option.none := by
  refine no_operand hd hl fun y hy => ?_
  have hnone : (expression m).Blocked ⟨l.stop, j :: rest⟩ := expression_blocked_at_relation rfl hj m
  rw [hnone] at hy
  exact absurd hy List.not_mem_nil

/-- A literal before a comma is read alone, and the comma follows. -/
theorem no_operand_before_comma {i j : Lexeme} (hd : d.rest = l :: j :: rest) (hl : l.kind = .leftParen)
    (hj : j.kind ∈ literalTokens) (hi : i ∈ rest.head?) (hcomma : i.kind = .comma) (m : ℕ) :
    (instanceLevel (expression (m + 1))).all? d = Option.none := by
  have hnext : Cursor.HeadIn ⟨j.stop, rest⟩ [.comma] := by
    intro k hk
    cases Option.mem_unique hi hk
    exact List.mem_singleton.2 hcomma
  refine no_operand hd hl fun y hy => ?_
  have hsole := sole_literal (c := ⟨l.stop, j :: rest⟩) rfl hj (fun k hk => by
    rw [List.mem_singleton.1 (hnext k hk)]
    decide) m
  rw [hsole] at hy
  cases List.mem_singleton.1 hy
  exact avoids hnext (by decide)

/-- **What can stand in parentheses as an operand**, if not a list of tests: the only test, or else an interval
that begins with the parenthesis, where the first of several tests is one itself. -/
theorem operand_of_tests {m : ℕ} (h : Local σ n (Tree.moved σ.before) e (expression (m + 1)))
    (he : e.Yields Nonterminal.expression.Tells) (hdesc : ∀ c, Descending (e c).found) (hσ : σ.after = [k])
    (hk : k.kind = .rightParen) (ho : (c.within σ).Ordered) (hn : c.rest.length < n)
    (hd : d.rest = l :: (c.within σ).rest) (hl : l.kind = .leftParen) (hstop : l.stop = (c.within σ).stop)
    (hod : d.Ordered) (hus : (separated (either (simpleTest e) e)).all? c = some us)
    (hplain : ∀ u ∈ us, u.isPlainTest = true) :
    (instanceLevel (expression (m + 1))).all? d = Option.none ∨
      (∃ u span, us = [u] ∧ (instanceLevel (expression (m + 1))).all? d =
        some (.node .parenthesizedExpression span [u.moved σ.before])) ∨
      2 ≤ us.length ∧ us.head?.any Tree.isInterval = true := by
  have htest : (either (simpleTest e) e).Steady := (yields_simpleTest he).steady.either he.steady
  obtain ⟨others, hfound⟩ := found_of_all? htest.separated (descending_separated _ _) ho.of_within hus
  obtain ⟨u, more, x, rfl, hu, hmore⟩ :=
    Reader.separated_first htest (by rw [hfound]; exact List.mem_cons_self)
  obtain ⟨w, hw, hwne⟩ : ∃ w, Cursor.Passes c w x ∧ w ≠ [] :=
    (((yields_simpleTest he).mono fun _ _ ht => ht.ne_nil).either
      (he.mono fun _ _ ht => ht.ne_nil) c).spans _ hu
  obtain ⟨j, w, rfl⟩ := List.exists_cons_of_ne_nil hwne
  have hrest : c.rest = j :: (w ++ x.rest) := hw.rest
  have hd' : d.rest = l :: j.moved σ.before :: ((w ++ x.rest).map (Lexeme.moved σ.before) ++ σ.after) := by
    rw [hd, Cursor.within_rest, hrest]
    rfl
  by_cases hrelation : j.kind ∈ relationKinds
  · exact .inl (no_operand_at_relation hd' hl hrelation _)
  have hsimple : (simpleTest e c).found = [] :=
    simpleTest_found_nil (l := j) (by rw [hrest]; rfl) hrelation
  have hue : (u, x) ∈ (e c).found := by
    rcases of_mem_union hu with hu | hu
    · rw [hsimple] at hu
      exact absurd hu List.not_mem_nil
    · exact hu
  rcases hmore with ⟨rfl, rfl⟩ | ⟨hmore, i, hi, hcomma⟩
  · -- the only test is an expression
    have hall : e.all? c = some u := all?_of_mem he.steady (hdesc c) ho.of_within hue rfl
    obtain ⟨span, hspan⟩ := all?_parenthesized h hσ hk (hdesc c) ho hn hd hl hstop hall
    have hhead : d.HeadIn [.leftParen] := Cursor.headIn_of_rest hd (List.mem_singleton.2 hl)
    refine .inr (.inl ⟨u, span, rfl, ?_⟩)
    refine all?_instanceLevel (yields_expression _) hod (avoids_one hhead (by decide)) ?_
    rw [all?_congr (primary_found hhead), hspan]
  · obtain ⟨v, hv, ht⟩ := (he c).spans _ hue
    obtain rfl : v = j :: w := hv.unique hw
    have hcomes := ht.comesOf rfl
    have hform := hplain u List.mem_cons_self
    unfold Tree.isPlainTest at hform
    split at hform
    · obtain ⟨i, hi, hkind⟩ := hcomes.relation
      cases hi
      exact absurd hkind hrelation
    · have hpos := List.length_pos_iff.2 hmore
      refine .inr (.inr ⟨?_, rfl⟩)
      rw [List.length_cons]
      omega
    · -- a literal is one token
      cases hcomes
      have hliteral : j.kind ∈ literalTokens := by
        have hkind : j.kind = .number ∨ j.kind = .string := of_decide_eq_true hform
        rcases hkind with hkind | hkind <;> rw [hkind] <;> decide
      refine .inl (no_operand_before_comma (i := i.moved σ.before) hd' hl hliteral ?_ hcomma m)
      rw [List.nil_append, List.head?_append, List.head?_map, hi]
      rfl
    · cases hform

end Within

/-- **A name and an operator or `in`** begin a comparison, if what follows uses all tokens. -/
theorem all?_comparisonLevel (he : e.Yields Nonterminal.expression.Tells) (ho : c.Ordered)
    {k : Lexeme} {ts : List Tree} (hc : c.rest = l :: k :: rest) (hl : l.kind = .identifier)
    (hk : k.kind ∉ operandTails) (h : (comparisonRest e).all? ⟨l.stop, k :: rest⟩ = some ts) :
    ∃ span span', (comparisonLevel e).all? c =
      some (.node .comparison span (.node .qualifiedName span' [.token l.token] :: ts)) := by
  obtain ⟨span, hname⟩ := sole_name he hc hl fun j hj => by
    cases hj
    exact hk
  have hpasses : Cursor.Passes c [l] ⟨l.stop, k :: rest⟩ := .singleton hc
  have hplain : (instanceLevel e).all? c = Option.none :=
    hname.all?_none hpasses ho (List.cons_ne_nil _ _)
  have hcomparison : (instanceLevel e >>= fun left => extend .comparison left (comparisonRest e)).all? c =
      (extend .comparison (.node .qualifiedName span [.token l.token]) (comparisonRest e)).all?
        ⟨l.stop, k :: rest⟩ := hname.all?_bind (descending_read _ _ _) hpasses.last
  have hextend := all?_extend (c := ⟨l.stop, k :: rest⟩) .comparison
    (.node .qualifiedName span [.token l.token]) (comparisonRest e)
  rw [h] at hextend
  refine ⟨_, span, Eq.trans ?_ hextend⟩
  rw [all?_comparisonLevel_eq, hplain, Option.none_or, hcomparison]

end Grammar

/-! ## Sources -/

section Sources

variable {name source : String} {t q : Tree} {us : List Tree} {ls : List Lexeme}

/-- What a source of plain tests is read as. -/
theorem reads_tests (ht : parse true source = .ok t) (htests : t.tests? = some (false, us))
    (hplain : ∀ u ∈ us, u.isPlainTest = true) : ∃ ls span, Tokens true 0 source.toList ls ∧
      (Grammar.tests (Grammar.expression (ls.length + 1))).all? ⟨0, ls⟩ =
        some (.node .positiveUnaryTests span us) := by
  obtain ⟨ls, htokens, -⟩ := tells_of_parse ht
  have hread := (parse_eq_ok.1 ht).2
  rw [lex_eq_iff.2 htokens] at hread
  have he := Grammar.yields_expression (ls.length + 1)
  have ho : Cursor.Ordered ⟨0, ls⟩ := htokens.ordered
  have hall : (Grammar.unaryTests (Grammar.expression (ls.length + 1))).all? ⟨0, ls⟩ = some t :=
    (all?_eq_complete (Grammar.yields_unaryTests he) ho).symm.trans hread
  obtain ⟨span, hspan⟩ := Grammar.all?_tests he hall htests hplain
  exact ⟨ls, span, htokens, hspan⟩

/-- The tokens of plain tests derive from the rule of tests. -/
theorem tells_tests (ho : Cursor.Ordered ⟨0, ls⟩) (n : ℕ)
    (h : (Grammar.tests (Grammar.expression n)).all? ⟨0, ls⟩ = some t) :
    Nonterminal.positiveUnaryTests.Tells ls t :=
  (Grammar.yields_tests (Grammar.yields_expression n)).of_all? ho h

/-- **The tokens of a membership that is an expression**: the parenthesis at its end closes. -/
theorem tokens_of_membership (hname : Lexer.IsName name) (h : Tokens true 0 source.toList ls)
    (ht : Nonterminal.positiveUnaryTests.Tells ls t) (hq : parse false (membership name source) = .ok q) :
    ∃ closing : Lexeme, closing.kind = .rightParen ∧ Tokens false 0 (membership name source).toList
      (membershipTokens name (ls.map (Lexeme.moved (name.length + 5)) ++ [closing])) := by
  have hd : Derives false [.rule .positiveUnaryTests] ls [t] := ht.derives_last
  obtain ⟨behind, hbehind, htokens⟩ := tokens_membership hname h (hd.withoutNot rfl)
  rcases hbehind with rfl | ⟨closing, hclosing, rfl⟩
  · -- without it the number of brackets is odd
    obtain ⟨qs, htokens', hq⟩ := tells_of_parse hq
    have hlex := (lex_eq_iff.2 htokens).symm.trans (lex_eq_iff.2 htokens')
    obtain rfl := (Lexed.mk.inj hlex).1
    have heven := hq.brackets_even rfl
    have hinner := ht.brackets_even rfl
    have hmoved : brackets (ls.map (Lexeme.moved (name.length + 5))) = brackets ls := by
      unfold brackets
      rw [List.countP_map]
      rfl
    have hcount : brackets (membershipTokens name (ls.map (Lexeme.moved (name.length + 5)) ++ [])) =
        brackets ls + 1 := by
      rw [← hmoved, List.append_nil]
      simp [brackets, membershipTokens, Terminal.isBracket]
    rw [hcount, Nat.bodd_succ, hinner] at heven
    cases heven
  · exact ⟨closing, hclosing, htokens⟩

/-- Behind the word `in`, and behind the parenthesis, the tokens are in order. -/
theorem ordered_behind_in {whole : String} {inner : List Lexeme}
    (h : Tokens false 0 whole.toList (membershipTokens name inner)) :
    Cursor.Ordered ⟨name.length + 3, (membershipTokens name inner).drop 2⟩ ∧
      Cursor.Ordered ⟨name.length + 5, inner⟩ := by
  have ho : Cursor.Ordered ⟨0, membershipTokens name inner⟩ := h.ordered
  have hword : Cursor.Passes ⟨0, membershipTokens name inner⟩ ((membershipTokens name inner).take 2)
      ⟨name.length + 3, (membershipTokens name inner).drop 2⟩ := ⟨rfl, rfl⟩
  have hopening : Cursor.Passes ⟨0, membershipTokens name inner⟩ ((membershipTokens name inner).take 3)
      ⟨name.length + 5, inner⟩ := ⟨rfl, rfl⟩
  exact ⟨ho.passes hword, ho.passes hopening⟩

/-- Where all behind a name and `in` is read, the whole source is one comparison. -/
theorem comparison_of_source {whole : String} {inner : List Lexeme} {ts : List Tree}
    (hq : parse false whole = .ok q) (htokens : Tokens false 0 whole.toList (membershipTokens name inner))
    (h : (Grammar.comparisonRest (Grammar.expression (inner.length + 3))).all?
      ⟨name.length, (membershipTokens name inner).tail⟩ = some ts) :
    ∃ s₁ s₂ s₃, q = .node .expressions s₁ [.node .comparison s₂
      (.node .qualifiedName s₃ [.token ⟨.identifier, name, some ⟨0, name.length⟩⟩] :: ts)] := by
  have he := Grammar.yields_expression (inner.length + 3)
  have ho : Cursor.Ordered ⟨0, membershipTokens name inner⟩ := htokens.ordered
  have hfirst : Cursor.HeadIn ⟨0, membershipTokens name inner⟩ [.identifier] :=
    Cursor.headIn_of_rest rfl (List.mem_singleton_self _)
  have hword : Terminal.keyword .inWord ∉ Grammar.operandTails := by decide
  obtain ⟨s₂, s₃, hcomparison⟩ := Grammar.all?_comparisonLevel he ho rfl rfl hword h
  have hexpression : (Grammar.expression (inner.length + 4)).all? ⟨0, membershipTokens name inner⟩ = some _ :=
    Grammar.all?_expressionLevel he ho (Grammar.avoids hfirst (by decide)) hcomparison
  have hsource := Grammar.all?_expressions (Grammar.yields_expression (inner.length + 4)).steady
    (Grammar.descending_expression _ _) ho hexpression
  have hall : (Grammar.expressions (Grammar.expression (inner.length + 4))).all?
      ⟨0, membershipTokens name inner⟩ = some q := by
    have hcomplete := (parse_eq_ok.1 hq).2
    rw [lex_eq_iff.2 htokens] at hcomplete
    rw [← all?_eq_complete (Grammar.yields_expressions (Grammar.yields_expression (inner.length + 4))) ho]
    exact hcomplete
  exact ⟨_, s₂, s₃, Option.some.inj (hall.symm.trans hsource)⟩

/-- **The tree of a membership.** Where a name, the word `in` and tests in parentheses are an expression, its
tree has the trees of these tests, moved. Where the first of several tests is an interval, this is so if no
interval is read from the parenthesis on. -/
theorem parse_membership (hname : Lexer.IsName name) (ht : parse true source = .ok t)
    (htests : t.tests? = some (false, us)) (hplain : ∀ u ∈ us, u.isPlainTest = true)
    (hq : parse false (membership name source) = .ok q)
    (hread : 2 ≤ us.length → us.head?.any Tree.isInterval = true → q.listsTests = true) :
    q.IsMembership name (us.map (Tree.moved (name.length + 5))) := by
  obtain ⟨ls, span, htokens, hall⟩ := reads_tests ht htests hplain
  have ho : Cursor.Ordered ⟨0, ls⟩ := htokens.ordered
  obtain ⟨closing, hclosing, hqtokens⟩ :=
    tokens_of_membership hname htokens (tells_tests ho _ hall) hq
  -- where the tests stand in the longer source
  let σ : Surroundings := ⟨name.length + 5, [closing]⟩
  let inner := ls.map (Lexeme.moved (name.length + 5)) ++ [closing]
  let word : Lexeme := ⟨.keyword .inWord, "in", name.length + 1, name.length + 3⟩
  let opening : Lexeme := ⟨.leftParen, "(", name.length + 4, name.length + 5⟩
  let d : Cursor := ⟨name.length + 3, opening :: inner⟩
  obtain ⟨hod, hoi⟩ : d.Ordered ∧ Cursor.Ordered ⟨name.length + 5, inner⟩ := ordered_behind_in hqtokens
  have hplace : Cursor.within σ ⟨0, ls⟩ = ⟨name.length + 5, inner⟩ := (within_moved _ _ _).symm
  have hinner : (Cursor.within σ ⟨0, ls⟩).Ordered := by rwa [hplace]
  have hd : d.rest = opening :: (Cursor.within σ ⟨0, ls⟩).rest := by rw [hplace]
  have hstop : opening.stop = (Cursor.within σ ⟨0, ls⟩).stop := by rw [hplace]
  have he := Grammar.yields_expression (ls.length + 1)
  have he' := Grammar.yields_expression (ls.length + 4)
  have hlocal : Local σ (ls.length + 1) (Tree.moved σ.before) (Grammar.expression (ls.length + 1))
      (Grammar.expression (ls.length + 4)) := Grammar.local_expression (by omega)
  -- behind the word an operand goes before a list
  have hbehind := Grammar.all?_comparisonRest (e := Grammar.expression (ls.length + 4))
    (c := ⟨name.length, (membershipTokens name inner).tail⟩) rfl rfl
    (Cursor.headIn_of_rest rfl (List.mem_singleton_self _))
  have hwhole : ∀ ts, (Grammar.comparisonRest (Grammar.expression (ls.length + 4))).all?
      ⟨name.length, (membershipTokens name inner).tail⟩ = some ts → ∃ s₁ s₂ s₃, q = .node .expressions s₁
        [.node .comparison s₂
          (.node .qualifiedName s₃ [.token ⟨.identifier, name, some ⟨0, name.length⟩⟩] :: ts)] := by
    intro ts hts
    have hlength : ls.length + 4 = inner.length + 3 := by simp [inner]
    rw [hlength] at hts
    exact comparison_of_source hq hqtokens hts
  have hlist : (Grammar.instanceLevel (Grammar.expression (ls.length + 4))).all? d = Option.none →
      q.IsMembership name (us.map (Tree.moved (name.length + 5))) := by
    intro hnone
    have hlisted := Grammar.all?_listed (Grammar.local_tests hlocal he he') rfl hclosing hinner
      (Nat.lt_succ_self _) hd rfl hstop hall (.token word.token)
    rw [hnone, Option.map_none, Option.none_or] at hbehind
    obtain ⟨s₁, s₂, s₃, rfl⟩ := hwhole _ (hbehind.trans hlisted)
    rw [moved_node]
    exact .listed rfl hclosing
  rcases Grammar.operand_of_tests hlocal he (Grammar.descending_expression _) rfl hclosing hinner
    (Nat.lt_succ_self _) hd rfl hstop hod (Grammar.all?_items hall) hplain with
      hnone | ⟨u, s, rfl, hsingle⟩ | ⟨hmany, hinterval⟩
  · exact hlist hnone
  · rw [hsingle, Option.map_some, Option.some_or] at hbehind
    obtain ⟨s₁, s₂, s₃, rfl⟩ := hwhole _ hbehind
    exact .single rfl
  · cases hoperand : (Grammar.instanceLevel (Grammar.expression (ls.length + 4))).all? d with
    | none => exact hlist hoperand
    | some u =>
      -- an interval from the parenthesis on is no list
      rw [hoperand, Option.map_some, Option.some_or] at hbehind
      obtain ⟨s₁, s₂, s₃, rfl⟩ := hwhole _ hbehind
      cases hread hmany hinterval

end Sources

end Criterion

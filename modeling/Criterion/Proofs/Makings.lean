import Criterion.Proofs.Locality

/-!
# What holds for all trees that are read

A property of trees that tokens have, and that nodes have if their parts do, is one of all trees that are read.
Only for choices this may be a matter of the reading that was taken, so they are left open here.

* `Reader.Makes`: from places with few tokens left, all values that are read have a property.
* `Makes.bind`, `makes_chain`, `Makes.node`: what is put together of such readers is such a reader.
* `Tree.Handed`: a property that all rules but that of choices hand on from their parts.
* `Grammar.makes_orLevel`, `Grammar.makes_forExpression`: **such a property holds for what a level reads, if it
  holds for the expressions inside.** These have fewer tokens than the level.
* `Grammar.makes_expressions`, `Grammar.makes_unaryTests`: so it does for whole sources.
-/

namespace Criterion

variable {α β : Type}

namespace Reader

/-- From places with fewer than `n` tokens left all that is read has the property, and no tokens come back. -/
def Makes (r : Reader α) (n : ℕ) (P : α → Prop) : Prop :=
  ∀ c, c.Ordered → c.rest.length < n → ∀ y ∈ (r c).found,
    P y.1 ∧ y.2.Ordered ∧ y.2.rest.length ≤ c.rest.length

variable {r s : Reader α} {n : ℕ} {P : α → Prop} {Q : β → Prop} {f g : α → Reader β} {a : α}

theorem Makes.weaken (h : r.Makes (n + 1) P) : r.Makes n P :=
  fun c ho hc => h c ho (Nat.lt_succ_of_lt hc)

theorem Makes.mono {P' : α → Prop} (h : r.Makes n P) (hP : ∀ a, P a → P' a) : r.Makes n P' :=
  fun c ho hc y hy => (h c ho hc y hy).imp_left (hP y.1)

theorem makes_pure (h : P a) : (pure a : Reader α).Makes n P := by
  intro c ho _ y hy
  obtain rfl := List.mem_singleton.1 hy
  exact ⟨h, ho, le_rfl⟩

theorem makes_none : (none : Reader α).Makes n P := fun _ _ _ _ hy => absurd hy List.not_mem_nil

theorem Makes.bind (h : r.Makes n P) (hf : ∀ a, P a → (f a).Makes n Q) : (r >>= f).Makes n Q := by
  intro c ho hc y hy
  obtain ⟨x, hx, hy⟩ := Readings.of_mem_bind hy
  obtain ⟨hP, hd, hlength⟩ := h c ho hc x hx
  obtain ⟨hQ, hd', hlength'⟩ := hf x.1 hP x.2 hd (hlength.trans_lt hc) y hy
  exact ⟨hQ, hd', hlength'.trans hlength⟩

theorem Makes.either (h : r.Makes n P) (h' : s.Makes n P) : (r.either s).Makes n P :=
  fun c ho hc y hy => (Readings.of_mem_union hy).elim (h c ho hc y) (h' c ho hc y)

theorem Makes.fork (h : r.Makes n P) (hf : ∀ a, P a → (f a).Makes n Q) (hg : ∀ a, P a → (g a).Makes n Q) :
    (r.fork f g).Makes n Q :=
  fun c ho hc y hy => (Readings.of_mem_union hy).elim (h.bind hf c ho hc y) (h.bind hg c ho hc y)

theorem makes_oneOf {rs : List (Reader α)} (h : ∀ r ∈ rs, r.Makes n P) : (oneOf rs).Makes n P := by
  induction rs with
  | nil => exact makes_none
  | cons r rs ih =>
    obtain ⟨hr, hrs⟩ := List.forall_mem_cons.1 h
    exact hr.either (ih hrs)

theorem makes_token {kinds : List Terminal} {P : Tree → Prop} (h : ∀ k, P (.token k)) :
    (token kinds).Makes n P := by
  intro c ho hc y hy
  rcases token_cases kinds c with hread | ⟨l, d, hw, -, hread⟩
  · rw [hread] at hy
    exact absurd hy List.not_mem_nil
  · rw [hread] at hy
    obtain rfl := List.mem_singleton.1 hy
    exact ⟨h _, ho.passes hw, by rw [hw.rest]; exact Nat.le_succ _⟩

/-- Behind a reader that takes a token there are fewer left. -/
theorem Makes.bind_shorter (hr : r.Taking) (h : r.Makes (n + 1) P) (hf : ∀ a, P a → (f a).Makes n Q) :
    (r >>= f).Makes (n + 1) Q := by
  intro c ho hc y hy
  obtain ⟨x, hx, hy⟩ := Readings.of_mem_bind hy
  obtain ⟨w, hw, hne⟩ := (hr c).spans x hx
  have hlength : c.rest.length = w.length + x.2.rest.length := by rw [hw.rest, List.length_append]
  have hpos : 0 < w.length := List.length_pos_iff.2 hne
  obtain ⟨hP, hd, -⟩ := h c ho hc x hx
  obtain ⟨hQ, hd', hlength'⟩ := hf x.1 hP x.2 hd (by omega) y hy
  exact ⟨hQ, hd', by omega⟩

theorem makes_token_bind {kinds : List Terminal} {f : Tree → Reader β}
    (h : ∀ k, (f (.token k)).Makes n Q) : (token kinds >>= f).Makes (n + 1) Q := by
  refine Makes.bind_shorter (P := fun t => ∃ k, t = .token k) Taking.token
    (makes_token fun k => ⟨k, rfl⟩) ?_
  rintro _ ⟨k, rfl⟩
  exact h k

/-- A token before what is read anywhere with few tokens left. -/
theorem makes_token_then {kinds : List Terminal} {f : Tree → Reader β}
    (h : ∀ k, (f (.token k)).Makes n Q) : (token kinds >>= f).Makes n Q :=
  (makes_token_bind h).weaken

theorem makes_skip_bind {kind : Terminal} {f : Unit → Reader β} (h : (f ()).Makes n Q) :
    (skip kind >>= f).Makes (n + 1) Q :=
  Makes.bind_shorter (P := fun _ => True) Taking.skip
    ((makes_token (P := fun _ => True) fun _ => trivial).bind fun _ _ => makes_pure trivial) fun _ _ => h

theorem makes_skip_then {kind : Terminal} {f : Unit → Reader β} (h : (f ()).Makes n Q) :
    (skip kind >>= f).Makes n Q := (makes_skip_bind h).weaken

theorem makes_steps {step : α → Reader α} (h : ∀ a, P a → (step a).Makes n P) (fuel : ℕ) :
    ∀ a, P a → (steps step fuel a).Makes n P := by
  induction fuel with
  | zero => exact fun a ha => makes_pure ha
  | succ fuel ih => exact fun a ha => ((h a ha).bind ih).either (makes_pure ha)

theorem makes_chain {step : α → Reader α} (h : ∀ a, P a → (step a).Makes n P) (ha : P a) :
    (chain step a).Makes n P := fun c => makes_steps h c.rest.length a ha c

theorem Makes.separated (h : r.Makes n P) : (separated r).Makes n fun items => ∀ a ∈ items, P a := by
  refine h.bind fun a ha => makes_chain (fun items hitems => ?_) (List.forall_mem_singleton.2 ha)
  refine makes_skip_then (h.bind fun b hb => makes_pure ?_)
  exact List.forall_mem_append.2 ⟨hitems, List.forall_mem_singleton.2 hb⟩

theorem makes_position : position.Makes n fun _ => True := by
  intro c ho _ y hy
  obtain rfl := List.mem_singleton.1 hy
  exact ⟨trivial, ho, le_rfl⟩

theorem Makes.node {parts : Reader (Rule × List Tree)} {P : Rule × List Tree → Prop} {Q : Tree → Prop}
    (h : parts.Makes n P) (hQ : ∀ rule span ts, P (rule, ts) → Q (.node rule span ts)) :
    (Reader.node parts).Makes n Q := by
  intro c ho hc y hy
  have hnode : (do
      let x ← parts
      let stop ← position
      return Tree.node x.1 (c.rest.head?.map fun l => ⟨l.start, stop⟩) x.2 : Reader Tree).Makes n Q :=
    h.bind fun x hx => makes_position.bind fun stop _ => makes_pure (hQ x.1 _ x.2 hx)
  exact hnode c ho hc y hy

end Reader

/-! ## Properties that rules hand on -/

/-- Tokens have the property, and nodes have it if their parts do. For choices that is left open. -/
structure Tree.Handed (S : Tree → Prop) : Prop where
  token : ∀ k, S (.token k)
  node : ∀ rule span ts, rule ≠ .ifExpression → (∀ t ∈ ts, S t) → S (.node rule span ts)

namespace Grammar

open Reader

variable {S : Tree → Prop} {e operand : Reader Tree} {n : ℕ} {opening start left : Tree}
  {parts : Reader (List Tree)} {r : Rule}

/-- All trees of some parts have the property. -/
def All (S : Tree → Prop) (ts : List Tree) : Prop := ∀ t ∈ ts, S t

theorem all_nil : All S [] := List.forall_mem_nil S

theorem all_cons {t : Tree} {ts : List Tree} (ht : S t) (hts : All S ts) : All S (t :: ts) :=
  List.forall_mem_cons.2 ⟨ht, hts⟩

theorem all_append {ts us : List Tree} (hts : All S ts) (hus : All S us) : All S (ts ++ us) :=
  List.forall_mem_append.2 ⟨hts, hus⟩

theorem all_one {t : Tree} (ht : S t) : All S [t] := all_cons ht all_nil

section

variable (hS : Tree.Handed S)
include hS

theorem makes_node {parts : Reader (Rule × List Tree)}
    (h : parts.Makes n fun x => x.1 ≠ .ifExpression ∧ All S x.2) : (node parts).Makes n S :=
  h.node fun rule span ts hts => hS.node rule span ts hts.1 hts.2

theorem makes_rule (hr : r ≠ .ifExpression) (h : parts.Makes n (All S)) : (rule r parts).Makes n S :=
  makes_node hS (h.bind fun _ hts => makes_pure ⟨hr, hts⟩)

theorem makes_extend (hr : r ≠ .ifExpression) (hleft : S left) (h : parts.Makes n (All S)) :
    (extend r left parts).Makes n S :=
  h.bind fun _ hts => makes_position.bind fun _ _ =>
    makes_pure (hS.node r _ _ hr (all_cons hleft hts))

theorem makes_tokenRule (hr : r ≠ .ifExpression) (k : Token) : S (tokenRule r (.token k)) :=
  hS.node r _ _ hr (all_one (hS.token k))

theorem makes_literal : literal.Makes n S := makes_token hS.token

section

variable (he : e.Makes n S)
include he

/-! ### Primary expressions -/

theorem makes_intervalRest (k : Token) (hstart : S start) :
    (intervalRest e (.token k) start).Makes n fun x => x.1 ≠ .ifExpression ∧ All S x.2 :=
  makes_skip_then <| he.bind fun _ hstop => makes_token_then fun l =>
    makes_pure ⟨nofun, all_cons (makes_tokenRule hS (by decide) k) (all_cons hstart (all_cons hstop
      (all_one (makes_tokenRule hS (by decide) l))))⟩

theorem makes_bracketed : (bracketed e).Makes (n + 1) S := by
  refine makes_node hS (makes_token_bind fun k => .either ?_ (he.bind fun first hfirst => .either ?_ ?_))
  · exact makes_skip_then (makes_pure ⟨nofun, all_nil⟩)
  · refine (makes_chain (P := All S) (fun items hitems => ?_) (all_one hfirst)).bind fun items hitems => ?_
    · exact makes_skip_then (he.bind fun next hnext =>
        makes_pure (all_append hitems (all_one hnext)))
    · exact makes_skip_then (makes_pure ⟨nofun, hitems⟩)
  · exact makes_intervalRest hS he k hfirst

theorem makes_parenthesized : (parenthesized e).Makes (n + 1) S :=
  makes_node hS (makes_token_bind fun k => he.bind fun _ hfirst =>
    .either (makes_intervalRest hS he k hfirst)
      (makes_skip_then (makes_pure ⟨nofun, all_one hfirst⟩)))

theorem makes_reversed : (reversed e).Makes (n + 1) S :=
  makes_node hS (makes_token_bind fun k => he.bind fun _ hfirst => makes_intervalRest hS he k hfirst)

theorem makes_context : (context e).Makes (n + 1) S := by
  have hentry : (entry e).Makes n S :=
    makes_rule hS (by decide) (makes_token_then fun k => makes_skip_then (he.bind fun _ hvalue =>
      makes_pure (all_cons (makes_tokenRule hS (by decide) k) (all_one hvalue))))
  exact makes_rule hS (by decide) (makes_skip_bind ((hentry.separated.either (makes_pure all_nil)).bind
    fun _ hentries => makes_skip_then (makes_pure hentries)))

theorem makes_parameters : (parameters e).Makes (n + 1) S := by
  have hpositional : (rule .positionalParameters (separated e)).Makes n S :=
    makes_rule hS (by decide) he.separated
  have harguments : (either (do return [← rule .positionalParameters (separated e)])
      (pure [])).Makes n (All S) :=
    (hpositional.bind fun _ ht => makes_pure (all_one ht)).either (makes_pure all_nil)
  exact makes_rule hS (by decide) (makes_skip_bind (harguments.bind fun _ hts =>
    makes_skip_then (makes_pure hts)))

theorem makes_primary : (primary e).Makes (n + 1) S := by
  refine makes_oneOf ?_
  simp only [List.forall_mem_cons, List.not_mem_nil, false_implies, implies_true, and_true]
  refine ⟨makes_literal hS, makes_bracketed hS he, makes_context hS he, makes_parenthesized hS he,
    makes_reversed hS he, ?_, ?_, ?_⟩
  · exact makes_rule hS (by decide) (makes_skip_bind (makes_pure all_nil))
  · exact makes_rule hS (by decide) (makes_token_bind fun k => makes_pure (all_one (hS.token k)))
  · exact makes_rule hS (by decide) (makes_token_bind fun k => (makes_parameters hS he).weaken.bind
      fun _ ht => makes_pure (all_cons (hS.token k) (all_one ht)))

/-! ### Operators -/

omit he in
theorem makes_qualifiedName : qualifiedName.Makes n S := by
  refine makes_rule hS (by decide) (makes_token_then fun k =>
    makes_chain (P := All S) (fun names hnames => ?_) (all_one (hS.token k)))
  exact makes_skip_then (makes_token_then fun l =>
    makes_pure (all_append hnames (all_one (hS.token l))))

theorem makes_postfixStep {x : Tree × Bool} (hx : S x.1) :
    (postfixStep e x).Makes (n + 1) fun y => S y.1 := by
  refine makes_oneOf ?_
  simp only [List.forall_mem_cons, List.not_mem_nil, false_implies, implies_true, and_true]
  refine ⟨?_, ?_, ?_⟩
  · refine Makes.bind (P := S) ?_ fun _ ht => makes_pure ht
    exact makes_extend hS (by decide) hx (makes_skip_bind (he.bind fun _ ht =>
      makes_skip_then (makes_pure (all_one ht))))
  · refine Makes.bind (P := S) ?_ fun _ ht => makes_pure ht
    exact makes_extend hS (by decide) hx ((makes_parameters hS he).bind fun _ ht =>
      makes_pure (all_one ht))
  · by_cases h : x.2 = true
    · rw [if_pos h]
      exact makes_none
    · rw [if_neg h]
      refine Makes.bind (P := S) ?_ fun _ ht => makes_pure ht
      exact makes_extend hS (by decide) hx (makes_skip_bind (makes_token_then fun k =>
        makes_pure (all_one (hS.token k))))

theorem makes_postfixLevel : (postfixLevel e).Makes (n + 1) S := by
  have hoperand : ∀ {r : Reader Tree} (plain : Bool), r.Makes (n + 1) S →
      (do return (← r, plain) : Reader (Tree × Bool)).Makes (n + 1) fun x => S x.1 :=
    fun _ h => h.bind fun _ ht => makes_pure ht
  have hfirst : (either (do return (← qualifiedName, true)) (do return (← primary e, false)) :
      Reader (Tree × Bool)).Makes (n + 1) fun x => S x.1 :=
    (hoperand true (makes_qualifiedName hS)).either (hoperand false (makes_primary hS he))
  exact hfirst.bind fun _ hx => (makes_chain (fun _ => makes_postfixStep hS he) hx).bind
    fun _ hy => makes_pure hy

omit he in
theorem makes_signs (h : operand.Makes (n + 1) S) (fuel : ℕ) : (signs operand fuel).Makes (n + 1) S := by
  induction fuel with
  | zero => exact h
  | succ fuel ih =>
    exact h.either (makes_rule hS (by decide) (makes_token_bind fun k => ih.weaken.bind fun _ ht =>
      makes_pure (all_cons (hS.token k) (all_one ht))))

theorem makes_unaryLevel : (unaryLevel e).Makes (n + 1) S :=
  fun c => makes_signs hS (makes_postfixLevel hS he) c.rest.length c

omit he in
theorem makes_leftJoined (h : operand.Makes (n + 1) S) (operators : List Terminal) :
    (leftJoined operand operators).Makes (n + 1) S :=
  h.bind fun _ hfirst => makes_chain (fun _ hleft => makes_extend hS (by decide) hleft
    (makes_token_bind fun k => h.weaken.bind fun _ ht =>
      makes_pure (all_cons (hS.token k) (all_one ht)))) hfirst

theorem makes_sumLevel : (sumLevel e).Makes (n + 1) S :=
  makes_leftJoined hS (makes_leftJoined hS (makes_leftJoined hS (makes_unaryLevel hS he) _) _) _

theorem makes_instanceLevel : (instanceLevel e).Makes (n + 1) S := by
  have htype : (rule .type (do return [← token [.identifier]])).Makes n S :=
    makes_rule hS (by decide) ((makes_token hS.token).bind fun _ ht => makes_pure (all_one ht))
  exact (makes_sumLevel hS he).bind fun _ hfirst => makes_chain (fun _ hleft =>
    makes_extend hS (by decide) hleft (makes_skip_bind (makes_skip_then
      (htype.bind fun _ ht => makes_pure (all_one ht))))) hfirst

/-! ### Tests and comparisons -/

theorem makes_simpleTest : (simpleTest e).Makes (n + 1) S :=
  makes_rule hS (by decide) (makes_token_bind fun k => (makes_sumLevel hS he).weaken.bind fun _ ht =>
    makes_pure (all_cons (hS.token k) (all_one ht)))

theorem makes_tests : (tests e).Makes n S :=
  makes_rule hS (by decide) ((makes_simpleTest hS he).weaken.either he).separated

theorem makes_comparisonRest : (comparisonRest e).Makes (n + 1) (All S) := by
  have hinst : (instanceLevel e).Makes n S := (makes_instanceLevel hS he).weaken
  refine makes_oneOf ?_
  simp only [List.forall_mem_cons, List.not_mem_nil, false_implies, implies_true, and_true]
  refine ⟨?_, ?_, ?_⟩
  · exact makes_token_bind fun k => hinst.bind fun _ ht =>
      makes_pure (all_cons (hS.token k) (all_one ht))
  · exact makes_token_bind fun k => hinst.bind fun _ hlow => makes_token_then fun l =>
      hinst.bind fun _ hhigh => makes_pure (all_cons (hS.token k) (all_cons hlow
        (all_cons (hS.token l) (all_one hhigh))))
  · refine makes_token_bind fun k => .either ?_ ?_
    · exact ((makes_simpleTest hS he).weaken.either hinst).bind fun _ ht =>
        makes_pure (all_cons (hS.token k) (all_one ht))
    · exact makes_token_then fun l => (makes_tests hS he).bind fun _ ht =>
        makes_token_then fun m => makes_pure (all_cons (hS.token k)
          (all_cons (hS.token l) (all_cons ht (all_one (hS.token m)))))

theorem makes_comparisonLevel : (comparisonLevel e).Makes (n + 1) S :=
  (makes_instanceLevel hS he).fork (fun _ ht => makes_pure ht) fun _ hleft =>
    makes_extend hS (by decide) hleft (makes_comparisonRest hS he)

omit he in
theorem makes_wordJoined (h : operand.Makes (n + 1) S) (k : Keyword) (hr : r ≠ .ifExpression) :
    (wordJoined operand k r).Makes (n + 1) S :=
  h.bind fun _ hfirst => makes_chain (fun _ hleft => makes_extend hS hr hleft
    (makes_skip_bind (h.weaken.bind fun _ ht => makes_pure (all_one ht)))) hfirst

/-- **What a level without a loop or a choice reads has the property.** -/
theorem makes_orLevel : (orLevel e).Makes (n + 1) S :=
  makes_wordJoined hS (makes_wordJoined hS (makes_comparisonLevel hS he) _ (by decide)) _ (by decide)

/-! ### Loops -/

theorem makes_iterationContext : (iterationContext e).Makes n S :=
  makes_rule hS (by decide) (he.fork
    (fun _ hfirst => makes_skip_then (he.bind fun _ ht =>
      makes_pure (all_cons hfirst (all_one ht))))
    fun _ hfirst => makes_pure (all_one hfirst))

theorem makes_inExpressions : (inExpressions e).Makes n S := by
  have hitem : (inExpression e).Makes n S :=
    makes_rule hS (by decide) (makes_token_then fun k => makes_skip_then
      ((makes_iterationContext hS he).bind fun _ ht => makes_pure (all_cons (hS.token k) (all_one ht))))
  exact makes_rule hS (by decide) hitem.separated

theorem makes_forExpression : (forExpression e).Makes (n + 1) S :=
  makes_rule hS (by decide) (makes_skip_bind ((makes_inExpressions hS he).bind fun _ hbindings =>
    makes_skip_then (he.bind fun _ ht => makes_pure (all_cons hbindings (all_one ht)))))

theorem makes_quantifiedExpression : (quantifiedExpression e).Makes (n + 1) S :=
  makes_rule hS (by decide) (makes_token_bind fun k => (makes_inExpressions hS he).bind fun _ hbindings =>
    makes_skip_then (he.bind fun _ ht =>
      makes_pure (all_cons (hS.token k) (all_cons hbindings (all_one ht)))))

/-! ### Whole sources -/

theorem makes_expressions : (expressions e).Makes n S := makes_rule hS (by decide) he.separated

theorem makes_unaryTests : (unaryTests e).Makes n S := by
  refine makes_rule hS (by decide) (makes_oneOf ?_)
  simp only [List.forall_mem_cons, List.not_mem_nil, false_implies, implies_true, and_true]
  refine ⟨?_, ?_, ?_⟩
  · exact (makes_tests hS he).bind fun _ ht => makes_pure (all_one ht)
  · exact makes_token_then fun k => makes_token_then fun l =>
      (makes_tests hS he).bind fun _ ht => makes_token_then fun m =>
        makes_pure (all_cons (hS.token k) (all_cons (hS.token l)
          (all_cons ht (all_one (hS.token m)))))
  · refine Makes.bind (P := S) ?_ fun _ ht => makes_pure (all_one ht)
    exact makes_rule hS (by decide) ((makes_token hS.token).bind fun _ ht => makes_pure (all_one ht))

end

end

end Grammar

end Criterion

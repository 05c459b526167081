import Criterion.Proofs.Building
import Criterion.Proofs.Quoting
import Criterion.Proofs.Subterms

/-!
# Where tests by comparison stand

A comparison operator that begins a test makes a test and no value, and the grammar has such tests only behind
`in` and among unary tests. So in the expressions of a source tests stand where they are matched.

* `Rule.rank`, `Nonterminal.rank`: what kind of test a rule may stand for.
* `Derives.forall_trees`: what holds for each token and each node of a derivation holds for its trees.
* `Derives.rank_le`: the rank of a tree is that of its nonterminal at most.
* `ranked_of_parse`: **in the expressions of a source tests by comparison stand where they are matched.**
-/

namespace Criterion

/-! ## Ranks -/

/-- Which tests a rule stands for: none, one, or a list of them. -/
def Rule.rank : Rule → ℕ
  | .simplePositiveUnaryTest => 1
  | .positiveUnaryTests => 2
  | _ => 0

def Tree.rank : Tree → ℕ
  | .token _ => 0
  | .node rule _ _ => rule.rank

def Nonterminal.rank : Nonterminal → ℕ
  | .simplePositiveUnaryTest | .positiveUnaryTest | .inTest => 1
  | .positiveUnaryTests => 2
  | _ => 0

mutual

/-- All tokens and all rules of a symbol are such as two predicates say. -/
def Symbol.isOf (P : Terminal → Bool) (R : Nonterminal → Bool) : Symbol → Bool
  | .rule n => R n
  | .named kinds | .text kinds => kinds.all P
  | .many body | .optional body => Symbol.allOf P R body

def Symbol.allOf (P : Terminal → Bool) (R : Nonterminal → Bool) : List Symbol → Bool
  | [] => true
  | s :: rest => s.isOf P R && Symbol.allOf P R rest

end

theorem Symbol.allOf_append (P : Terminal → Bool) (R : Nonterminal → Bool) (a b : List Symbol) :
    Symbol.allOf P R (a ++ b) = (Symbol.allOf P R a && Symbol.allOf P R b) := by
  induction a with
  | nil => rfl
  | cons s a ih => simp [Symbol.allOf, ih, Bool.and_assoc]

mutual

theorem Symbol.isOf_mono {P : Terminal → Bool} {R R' : Nonterminal → Bool} (h : ∀ n, R n = true → R' n = true) :
    ∀ s : Symbol, s.isOf P R = true → s.isOf P R' = true
  | .rule n, hs => h n hs
  | .named _, hs | .text _, hs => hs
  | .many body, hs | .optional body, hs => allOf_mono h body hs

theorem Symbol.allOf_mono {P : Terminal → Bool} {R R' : Nonterminal → Bool} (h : ∀ n, R n = true → R' n = true) :
    ∀ body : List Symbol, Symbol.allOf P R body = true → Symbol.allOf P R' body = true
  | [], _ => rfl
  | s :: rest, hs => by
    obtain ⟨hs, hrest⟩ := Bool.and_eq_true_iff.1 hs
    exact Bool.and_eq_true_iff.2 ⟨isOf_mono h s hs, allOf_mono h rest hrest⟩

end

/-- All rules have a rank of `k` at most. -/
def Symbol.allWithin (k : ℕ) : List Symbol → Bool := Symbol.allOf (fun _ => true) fun n => n.rank ≤ k

namespace Nonterminal

/-- A node has the rank of its nonterminal at most. -/
theorem rank_of_node (n : Nonterminal) : ∀ p ∈ n.productions, ∀ rule, n.nodeOf? p = some rule →
    rule.rank ≤ n.rank := by
  have htable : ∀ p ∈ n.productions, ((n.nodeOf? p).map Rule.rank).all (· ≤ n.rank) = true := by
    cases n <;> decide
  intro p hp rule hrule
  have hrank := htable p hp
  rw [hrule] at hrank
  simpa using hrank

/-- What a production gives way to has the rank of the nonterminal at most. -/
theorem rank_of_part (n : Nonterminal) : ∀ p ∈ n.productions, n.nodeOf? p = none →
    Symbol.allWithin n.rank p.body = true := by
  cases n <;> decide

/-- Only lists of tests, comparisons and unary tests as a whole have tests among their parts. -/
theorem rank_of_parts (n : Nonterminal) : ∀ p ∈ n.productions, ∀ rule, n.nodeOf? p = some rule →
    Symbol.allWithin 0 p.body = true ∨ rule = .positiveUnaryTests ∧ Symbol.allWithin 1 p.body = true ∨
      rule = .unaryTests ∨ n = .comparison := by
  have htable : ∀ p ∈ n.productions, (n.nodeOf? p).all (fun rule => Symbol.allWithin 0 p.body ||
      (rule == .positiveUnaryTests && Symbol.allWithin 1 p.body) || rule == .unaryTests ||
        n == .comparison) = true := by
    cases n <;> decide
  intro p hp rule hrule
  have hparts := htable p hp
  rw [hrule] at hparts
  simpa [or_assoc] using hparts

end Nonterminal

/-! ## Trees of a derivation -/

section Derived

variable {keeps : Bool} {body : List Symbol} {w : List Lexeme} {ts : List Tree} {k : ℕ}

/-- **What holds for each token and for each node of a derivation holds for its trees.** A node may use what is
known of its tokens and that it holds for its parts. -/
theorem Derives.forall_trees {Q : Tree → Prop} {L : Lexeme → Prop} (htoken : ∀ l, L l → Q (.token l.token))
    (hnode : ∀ n p w ts rule, p ∈ Nonterminal.productions n → n.nodeOf? p = some rule →
      Derives n.keeps p.body w ts → (∀ l ∈ w, L l) → (∀ t ∈ ts, Q t) → Q (.node rule (spanOf w) ts))
    (h : Derives keeps body w ts) (hw : ∀ l ∈ w, L l) : ∀ t ∈ ts, Q t := by
  induction h with
  | nil => exact fun _ ht => absurd ht List.not_mem_nil
  | named _ _ ih | kept _ _ ih =>
    obtain ⟨hl, hw⟩ := List.forall_mem_cons.1 hw
    exact List.forall_mem_cons.2 ⟨htoken _ hl, ih hw⟩
  | dropped _ _ ih => exact ih (List.forall_mem_cons.1 hw).2
  | @rule _ n p _ v _ us _ hp hd _ ihbody ih =>
    obtain ⟨hv, hw⟩ := List.forall_mem_append.1 hw
    have hshape : ∀ t ∈ n.shape p v us, Q t := by
      cases hr : n.nodeOf? p with
      | none =>
        rw [Nonterminal.shape_of_none hp hr hd]
        exact ihbody hv
      | some rule =>
        rw [Nonterminal.shape_of_some hr]
        exact List.forall_mem_singleton.2 (hnode n p v us rule hp hr hd hv (ihbody hv))
    exact List.forall_mem_append.2 ⟨hshape, ih hw⟩
  | absent _ ih | present _ ih | done _ ih | again _ ih => exact ih hw

/-- **What holds for each token of some kinds and each node of some rules holds for the trees of a derivation** from
symbols of these kinds and rules, if the rules that leave no node give way to such symbols. -/
theorem Derives.forall_of_symbols {T : Tree → Prop} {P : Terminal → Bool} {R : Nonterminal → Bool}
    (htoken : ∀ l : Lexeme, P l.kind = true → T (.token l.token))
    (hnode : ∀ n p rule, R n = true → p ∈ Nonterminal.productions n → n.nodeOf? p = some rule →
      ∀ w us, T (.node rule (spanOf w) us))
    (hgive : ∀ n p, R n = true → p ∈ Nonterminal.productions n → n.nodeOf? p = none →
      Symbol.allOf P R p.body = true)
    (h : Derives keeps body w ts) (hbody : Symbol.allOf P R body = true) : ∀ t ∈ ts, T t := by
  induction h with
  | nil => exact fun _ ht => absurd ht List.not_mem_nil
  | named hl _ ih | kept hl _ ih =>
    obtain ⟨hkinds, hrest⟩ := Bool.and_eq_true_iff.1 hbody
    exact List.forall_mem_cons.2 ⟨htoken _ (List.all_eq_true.1 hkinds _ hl), ih hrest⟩
  | dropped _ _ ih => exact ih (Bool.and_eq_true_iff.1 hbody).2
  | @rule _ n p _ v _ us _ hp hd _ ihbody ih =>
    obtain ⟨hn, hrest⟩ := Bool.and_eq_true_iff.1 hbody
    have hshape : ∀ t ∈ n.shape p v us, T t := by
      cases hr : n.nodeOf? p with
      | none =>
        rw [Nonterminal.shape_of_none hp hr hd]
        exact ihbody (hgive n p hn hp hr)
      | some rule =>
        rw [Nonterminal.shape_of_some hr]
        exact List.forall_mem_singleton.2 (hnode n p rule hn hp hr v us)
    exact List.forall_mem_append.2 ⟨hshape, ih hrest⟩
  | absent _ ih | done _ ih => exact ih (Bool.and_eq_true_iff.1 hbody).2
  | present _ ih =>
    refine ih ?_
    rw [Symbol.allOf_append]
    exact hbody
  | again _ ih =>
    refine ih ?_
    rw [Symbol.allOf_append]
    exact Bool.and_eq_true_iff.2 ⟨(Bool.and_eq_true_iff.1 hbody).1, hbody⟩

/-- **The rank of a tree is that of its nonterminal at most.** -/
theorem Derives.rank_le (h : Derives keeps body w ts) (hbody : Symbol.allWithin k body = true) :
    ∀ t ∈ ts, t.rank ≤ k := by
  refine h.forall_of_symbols (T := fun t => t.rank ≤ k) (fun _ _ => Nat.zero_le k) ?_ ?_ hbody
  · intro n p rule hn hp hr w us
    exact (n.rank_of_node p hp rule hr).trans (of_decide_eq_true hn)
  · intro n p hn hp hr
    refine Symbol.allOf_mono (fun m hm => ?_) p.body (n.rank_of_part p hp hr)
    exact decide_eq_true ((of_decide_eq_true hm).trans (of_decide_eq_true hn))

end Derived

/-! ## Artifacts -/

/-- Tests by comparison stand in an artifact only where they are matched. -/
def Artifact.Ranked (k : ℕ) : Artifact → Prop
  | .expr e => e.Ranked k
  | .entry _ e | .binding _ e => e.Ranked 0
  | .bindings bs => Expr.RankedEntries bs
  | .arguments es => Expr.RankedItems 0 es
  | .text _ | .arithmetic _ | .relation _ | .quantifier _ | .tests _ => True

section Artifacts

variable {a b : Artifact} {as : List Artifact} {e : Expr} {j k : ℕ}

namespace Expr

theorem rankedItems_iff {es : List Expr} : RankedItems k es ↔ ∀ e ∈ es, e.Ranked k := by
  induction es with
  | nil => simp [RankedItems]
  | cons e rest ih => simp [RankedItems, ih]

theorem rankedEntries_iff {es : List (String × Expr)} : RankedEntries es ↔ ∀ p ∈ es, p.2.Ranked 0 := by
  induction es with
  | nil => simp [RankedEntries]
  | cons p rest ih => simp [RankedEntries, ih]

mutual

theorem ranked_mono : ∀ (e : Expr) {j k : ℕ}, j ≤ k → e.Ranked j → e.Ranked k
  | .test _ _ _, _, _, hjk, h => ⟨Nat.le_trans h.1 hjk, h.2⟩
  | .list items, _, _, hjk, h => rankedItems_mono items (Nat.sub_le_sub_right hjk 1) h
  | .null, _, _, _, h | .boolean _, _, _, _, h | .number _, _, _, _, h | .text _, _, _, _, h
  | .wildcard, _, _, _, h | .name _, _, _, _, h | .registered _, _, _, _, h | .input, _, _, _, h
  | .procedure, _, _, _, h | .context _, _, _, _, h | .unary .., _, _, _, h | .arithmetic .., _, _, _, h
  | .relation .., _, _, _, h | .between .., _, _, _, h | .member .., _, _, _, h | .disjunction .., _, _, _, h
  | .conjunction .., _, _, _, h | .instanceOf .., _, _, _, h | .choose _ _ none, _, _, _, h
  | .choose _ _ (some _), _, _, _, h | .loop .., _, _, _, h | .quantified .., _, _, _, h
  | .range .., _, _, _, h | .call .., _, _, _, h | .path .., _, _, _, h | .filter .., _, _, _, h
  | .interval .., _, _, _, h => h

theorem rankedItems_mono : ∀ (es : List Expr) {j k : ℕ}, j ≤ k → RankedItems j es → RankedItems k es
  | [], _, _, _, _ => trivial
  | e :: rest, _, _, hjk, ⟨he, hrest⟩ => ⟨ranked_mono e hjk he, rankedItems_mono rest hjk hrest⟩

end

/-- What is no test can be matched, too. -/
theorem Ranked.tests (h : e.Ranked 0) : e.Ranked 2 := ranked_mono e (Nat.zero_le 2) h

end Expr

theorem Artifact.Ranked.mono (hjk : j ≤ k) (h : a.Ranked j) : a.Ranked k := by
  cases a with
  | expr e => exact Expr.ranked_mono e hjk h
  | _ => exact h

theorem Artifact.Ranked.operand (ha : a.Ranked k) (h : a.operand? = some e) : e.Ranked k := by
  cases a <;> cases h
  · exact ha
  all_goals trivial

theorem ranked_operands (has : ∀ a ∈ as, a.Ranked k) {es : List Expr} (h : as.mapM Artifact.operand? = some es) :
    Expr.RankedItems k es := by
  refine Expr.rankedItems_iff.2 fun e he => ?_
  obtain ⟨a, ha, hoperand⟩ := mem_of_mapM h he
  exact (has a ha).operand hoperand

/-- A list is a list of tests if its elements are tests. -/
theorem ranked_list (has : ∀ a ∈ as, a.Ranked (k - 1))
    (h : (do return .list (← as.mapM Artifact.operand?)) = some e) :
    e.Ranked k := by
  obtain ⟨es, hes, h⟩ := Option.bind_eq_some_iff.1 h
  cases h
  exact ranked_operands has hes

/-- What is collected under names is no test. -/
theorem ranked_entries {f : Artifact → Option (String × Expr)} (has : ∀ a ∈ as, a.Ranked 0)
    (hf : ∀ a p, a.Ranked 0 → f a = some p → p.2.Ranked 0) {es : List (String × Expr)} (h : as.mapM f = some es) :
    Expr.RankedEntries es := by
  refine Expr.rankedEntries_iff.2 fun p hp => ?_
  obtain ⟨a, ha, hentry⟩ := mem_of_mapM h hp
  exact hf a p (has a ha) hentry

theorem ranked_context (has : ∀ a ∈ as, a.Ranked 0) (h : (do return .context (← as.mapM Artifact.entry?)) = some e) :
    e.Ranked k := by
  obtain ⟨es, hes, h⟩ := Option.bind_eq_some_iff.1 h
  cases h
  refine ranked_entries has (fun a p ha hp => ?_) hes
  cases a <;> cases hp
  exact ha

theorem ranked_comparison (has : ∀ a ∈ as, a.Ranked 0) (h : Rule.comparison? as = some e) : e.Ranked 0 := by
  unfold Rule.comparison? at h
  split at h
  all_goals
    simp [Option.bind_eq_some_iff] at h
    try simp only [List.forall_mem_cons] at has
  all_goals grind [Expr.Ranked, → Artifact.Ranked.operand, → Expr.Ranked.tests]

/-- What a rule makes of parts that are no tests. -/
theorem ranked_expr {site : ℕ} {text : String} {rule : Rule} (has : ∀ a ∈ as, a.Ranked 0)
    (h : rule.expr? site text as = some e) : e.Ranked rule.rank := by
  unfold Rule.expr? at h
  split at h
  all_goals first
    | exact ranked_list (fun a ha => (has a ha).mono (Nat.zero_le _)) h
    | exact ranked_comparison has h
    | exact ranked_context has h
    | skip
  -- the other rules take a fixed number of parts apart
  all_goals
    simp [Option.bind_eq_some_iff] at h
    try simp only [List.forall_mem_cons] at has
  all_goals grind [Expr.Ranked, Rule.rank, Artifact.Ranked, → Artifact.Ranked.operand]

theorem ranked_artifact {site : ℕ} {text : String} {rule : Rule} (has : ∀ a ∈ as, a.Ranked 0)
    (h : rule.artifact? site text as = some b) : b.Ranked rule.rank := by
  have hexpr : (rule.expr? site text as).map .expr = some b → b.Ranked rule.rank := by
    intro h
    obtain ⟨e, he, rfl⟩ := Option.map_eq_some_iff.1 h
    exact ranked_expr has he
  have hbindings : (as.mapM Artifact.binding?).map .bindings = some b → b.Ranked 0 := by
    intro h
    obtain ⟨bs, hbs, rfl⟩ := Option.map_eq_some_iff.1 h
    refine ranked_entries has (fun a p ha hp => ?_) hbs
    cases a <;> cases hp
    exact ha
  have harguments : (as.mapM Artifact.operand?).map .arguments = some b → b.Ranked 0 := by
    intro h
    obtain ⟨es, hes, rfl⟩ := Option.map_eq_some_iff.1 h
    exact ranked_operands has hes
  unfold Rule.artifact? at h
  split at h
  all_goals first
    | exact hexpr h
    | exact hbindings h
    | exact harguments h
    | skip
  all_goals
    simp [Option.bind_eq_some_iff] at h
    try simp only [List.forall_mem_cons] at has
  all_goals grind [Expr.Ranked, Rule.rank, Artifact.Ranked, → Artifact.Ranked.operand]

/-- What is matched behind `in` may be a test or a list of tests. -/
theorem ranked_member (ha : a.Ranked 0) (has : ∀ b ∈ as, b.Ranked 2)
    (h : Rule.comparison? (a :: .text "in" :: as) = some e) : e.Ranked 0 := by
  have hmember : ∀ b ∈ as, (do return Expr.member (← a.operand?) (← b.operand?)) = some e → e.Ranked 0 := by
    intro b hb h
    obtain ⟨x, hx, h⟩ := Option.bind_eq_some_iff.1 h
    obtain ⟨tests, htests, h⟩ := Option.bind_eq_some_iff.1 h
    cases h
    exact ⟨ha.operand hx, (has b hb).operand htests⟩
  match as, h with
  | [b], h => exact hmember b List.mem_cons_self h
  | _ :: b :: _, h => exact hmember b (List.mem_cons_of_mem _ List.mem_cons_self) h

/-- A token stands for no test. -/
theorem ranked_token {t : Token} (h : t.assemble = .ok a) : a.Ranked k := by
  have hflat := flat_of_token h
  cases a with
  | expr e => cases e <;> trivial
  | text | arithmetic | relation | quantifier => trivial
  | _ => exact hflat.elim

end Artifacts

/-! ## Whole trees -/

section Trees

variable {source : String} {t : Tree} {ts : List Tree} {a : Artifact} {as : List Artifact} {w : List Lexeme}

/-- A tree is made into an artifact. -/
def Tree.MadeInto (source : String) (t : Tree) (a : Artifact) : Prop :=
  (Tree.artifacts source [t]).outcome = .ok [a]

/-- A tree that is no blank is made into an artifact, if its making does not fail. -/
theorem exists_made (ht : t.isTrivia = false) (h : (Tree.artifacts source [t]).outcome = .ok as) :
    ∃ a, as = [a] := by
  cases t with
  | token k =>
    rw [artifacts_token ht] at h
    cases hassemble : k.assemble with
    | error e =>
      rw [hassemble] at h
      cases h
    | ok a =>
      rw [hassemble] at h
      cases h
      exact ⟨a, rfl⟩
  | node rule span children =>
    have hrule : rule ≠ .ambiguous := by
      rintro rfl
      cases h
    obtain ⟨_, a, -, -, rfl⟩ := assemble_of_artifacts hrule h
    exact ⟨a, rfl⟩

/-- Trees that are no blanks are made into one artifact each. -/
theorem made_of_artifacts (hts : ∀ t ∈ ts, t.isTrivia = false) (h : (Tree.artifacts source ts).outcome = .ok as) :
    List.Forall₂ (Tree.MadeInto source) ts as := by
  induction ts generalizing as with
  | nil =>
    cases h
    exact .nil
  | cons t ts ih =>
    obtain ⟨ht, hts⟩ := List.forall_mem_cons.1 hts
    rw [← List.singleton_append, artifacts_append] at h
    obtain ⟨made, hmade, h⟩ := Run.bind_outcome_ok h
    obtain ⟨others, hothers, h⟩ := Run.bind_outcome_ok h
    cases h
    obtain ⟨a, rfl⟩ := exists_made ht hmade
    exact .cons hmade (ih hts hothers)

/-- A tree is no blank, and a test only if its rule is one of tests. -/
def Tree.MakesRanked (source : String) (t : Tree) : Prop :=
  t.isTrivia = false ∧ ∀ a, t.MadeInto source a → a.Ranked t.rank

/-- Parts whose trees have a rank of `k` at most. -/
theorem ranked_parts {k : ℕ} (hts : ∀ t ∈ ts, t.MakesRanked source) (hk : ∀ t ∈ ts, t.rank ≤ k)
    (has : List.Forall₂ (Tree.MadeInto source) ts as) : ∀ a ∈ as, a.Ranked k := by
  induction has with
  | nil => exact fun _ ha => absurd ha List.not_mem_nil
  | cons hta _ ih =>
    obtain ⟨ht, hts⟩ := List.forall_mem_cons.1 hts
    obtain ⟨hle, hk⟩ := List.forall_mem_cons.1 hk
    exact List.forall_mem_cons.2 ⟨(ht.2 _ hta).mono hle, ih hts hk⟩

theorem made_token {l : Lexeme} (hl : l.Spelled) (h : (Tree.token l.token).MadeInto source a) :
    l.token.assemble = .ok a := by
  unfold Tree.MadeInto at h
  rw [artifacts_token hl.trivia] at h
  cases hassemble : l.token.assemble with
  | error e =>
    rw [hassemble] at h
    cases h
  | ok b =>
    rw [hassemble] at h
    cases h
    rfl

/-- The parts of a comparison behind `in` may be tests, but not its operand. -/
theorem ranked_behind_in {rest : List Symbol}
    (hd : Derives true (.rule .instanceTest :: Nonterminal.wordOf .inWord :: rest) w ts)
    (hrest : Symbol.allWithin 2 rest = true) (hw : ∀ l ∈ w, l.Spelled) (hts : ∀ t ∈ ts, t.MakesRanked source)
    (has : List.Forall₂ (Tree.MadeInto source) ts as) :
    ∃ a bs, as = a :: .text "in" :: bs ∧ a.Ranked 0 ∧ ∀ b ∈ bs, b.Ranked 2 := by
  cases hd with
  | @rule _ n p _ v _ us _ hp hfirst hd =>
    cases hd with
    | @kept _ _ l _ ts hl hd =>
      have hreads : Nonterminal.instanceTest.Reads v (Nonterminal.instanceTest.shape p v us) :=
        ⟨p, hp, us, hfirst, rfl⟩
      obtain ⟨t, hshape, -⟩ := hreads.single rfl
      have hfirst : Derives false [.rule .instanceTest] (v ++ []) (Nonterminal.instanceTest.shape p v us ++ []) :=
        .rule hp hfirst .nil
      rw [hshape, List.append_nil, List.singleton_append] at hfirst
      rw [hshape, List.singleton_append] at hts has
      obtain ⟨ht, hts⟩ := List.forall_mem_cons.1 hts
      obtain ⟨-, hts⟩ := List.forall_mem_cons.1 hts
      cases has with
      | cons hta has =>
        cases has with
        | @cons _ b _ _ hlb has =>
          have hspelled : l.Spelled := hw l (by simp)
          have hkind : l.kind = .keyword .inWord := List.mem_singleton.1 hl
          have hword : l.text = "in" := spelling_of_word hspelled hkind (by decide)
          have hb : b = .text "in" := by
            have hassemble := made_token hspelled hlb
            unfold Token.assemble at hassemble
            simp only [Lexeme.token, hkind, hword] at hassemble
            cases hassemble
            rfl
          refine ⟨_, _, by rw [hb], ?_, ranked_parts hts (hd.rank_le hrest) has⟩
          exact (ht.2 _ hta).mono (hfirst.rank_le (k := 0) rfl t List.mem_cons_self)

/-- A comparison is no test. -/
theorem ranked_comparison_node {p : Production} {site : ℕ} {text : String} {b : Artifact}
    (hp : p ∈ Nonterminal.comparison.productions) (hd : Derives true p.body w ts) (hw : ∀ l ∈ w, l.Spelled)
    (hts : ∀ t ∈ ts, t.MakesRanked source) (has : List.Forall₂ (Tree.MadeInto source) ts as)
    (h : Rule.comparison.artifact? site text as = some b) : b.Ranked 0 := by
  have hplain : Symbol.allWithin 0 p.body = true → b.Ranked 0 := fun hbody =>
    ranked_artifact (ranked_parts hts (hd.rank_le hbody) has) h
  have hin : ∀ rest, p.body = .rule .instanceTest :: Nonterminal.wordOf .inWord :: rest →
      Symbol.allWithin 2 rest = true → b.Ranked 0 := by
    intro rest hbody hrest
    rw [hbody] at hd
    obtain ⟨a, bs, rfl, ha, hbs⟩ := ranked_behind_in hd hrest hw hts has
    obtain ⟨e, he, rfl⟩ := Option.map_eq_some_iff.1 h
    exact ranked_member ha hbs he
  simp only [Nonterminal.productions, List.mem_cons, List.not_mem_nil, or_false] at hp
  rcases hp with rfl | rfl | rfl | rfl
  · exact hplain rfl
  · exact hplain rfl
  · exact hin _ rfl rfl
  · exact hin _ rfl rfl

/-- **A node of a derivation is a test only if its rule is one of tests**, if that holds for its parts. -/
theorem ranked_node {n : Nonterminal} {p : Production} {rule : Rule} {span : Option Span} (hp : p ∈ n.productions)
    (hr : n.nodeOf? p = some rule) (hd : Derives n.keeps p.body w ts) (hw : ∀ l ∈ w, l.Spelled)
    (hts : ∀ t ∈ ts, t.MakesRanked source) : (Tree.node rule span ts).MakesRanked source := by
  refine ⟨rfl, fun b hb => ?_⟩
  have hrule : rule ≠ .ambiguous := by
    rintro rfl
    exact n.node_ne_ambiguous p hp hr
  obtain ⟨as, made, has, hmade, heq⟩ := assemble_of_artifacts hrule hb
  obtain rfl := List.singleton_inj.1 heq
  have has := made_of_artifacts (fun t ht => (hts t ht).1) has
  have hartifact := Nonterminal.artifact_of_assemble hmade
  rcases n.rank_of_parts p hp rule hr with hbody | ⟨rfl, hbody⟩ | rfl | rfl
  · exact ranked_artifact (ranked_parts hts (hd.rank_le hbody) has) hartifact
  · obtain ⟨e, he, rfl⟩ := Option.map_eq_some_iff.1 hartifact
    exact ranked_list (ranked_parts hts (hd.rank_le hbody) has) he
  · obtain ⟨tests, -, rfl⟩ := Option.map_eq_some_iff.1 hartifact
    trivial
  · obtain rfl : rule = .comparison := by
      have hnode : ∀ p ∈ Nonterminal.comparison.productions,
          Nonterminal.comparison.nodeOf? p = some .comparison := by decide
      exact Option.some.inj (hr.symm.trans (hnode p hp))
    exact ranked_comparison_node hp hd hw hts has hartifact

/-- **In the expressions of a source tests by comparison stand where they are matched.** -/
theorem ranked_of_parse {e : Expr} (h : parse false source = .ok t)
    (hbuild : (t.build source).outcome = .ok (some (.expr e))) : e.Ranked 0 := by
  obtain ⟨ls, htokens, ht⟩ := tells_of_parse h
  have hd : Derives false [.rule .expressions] ls [t] := ht.derives_last
  have hranked := hd.forall_trees (Q := Tree.MakesRanked source) (L := Lexeme.Spelled)
    (fun l hl => ⟨hl.trivia, fun a ha => ranked_token (made_token hl ha)⟩)
    (fun n p w ts rule hp hr hd hw hts => ranked_node hp hr hd hw hts) htokens.spelled t List.mem_cons_self
  have hmade : (Artifact.expr e).Ranked t.rank := hranked.2 _ (artifacts_of_build hbuild)
  have hrank : t.rank ≤ 0 := hd.rank_le rfl t List.mem_cons_self
  exact hmade.mono hrank

end Trees

end Criterion

import Criterion.Proofs.Endpoints
import Criterion.Proofs.Nesting
import Criterion.Proofs.Ranks

/-!
# What stands behind the word `in`

Behind an operand and the word `in` stands a target, an operand or a test by comparison, by itself or in
parentheses. The operand and the target are read there as they are by themselves, unless the operand goes on
behind the word: then the whole is no comparison by this word.

* `Reader.Anchored`: what is read does not depend on where the token before ends.
* `TargetForm`, `TargetForm.IsSource`: the two sources of an operand and a target.
* `TargetForm.IsSource.tokens`: **their tokens.**
* `Grammar.all?_target`: the target behind the word, with or without parentheses.
* `Grammar.all?_asking`: **an operand, the word and a target are a comparison by the word, or something longer.**
* `TargetForm.IsSource.reads`: **the trees of the two sources.**
-/

namespace Criterion

open Lexer Reader Readings

variable {α β : Type}

/-! ## Readers that begin with a token -/

/-- What is gone on to does not depend on how far the first part got. -/
theorem Readings.bind_found_congr {x y : Readings α} (h : x.found = y.found) (f : α → Reader β) :
    (x.bind f).found = (y.bind f).found := by
  have hfold : ∀ (go : Readings β → α × Cursor → Readings β),
      (∀ all all' x, all.found = all'.found → (go all x).found = (go all' x).found) →
      ∀ (xs : List (α × Cursor)) (all all' : Readings β), all.found = all'.found →
        (xs.foldl go all).found = (xs.foldl go all').found := by
    intro go hgo xs
    induction xs with
    | nil => exact fun _ _ h => h
    | cons x xs ih => exact fun all all' h => ih _ _ (hgo all all' x h)
  unfold Readings.bind
  rw [h]
  refine hfold _ (fun all all' x h => ?_) _ _ _ rfl
  exact congrArg (fun found => (f x.1 x.2).found.foldl (fun found r => insert r found) found) h

namespace Reader

variable {r s : Reader α} {i j : ℕ} {rest : List Lexeme}

/-- What is read of some tokens does not depend on where the token before them ends. -/
def Anchored (r : Reader α) : Prop := ∀ (i j : ℕ) (rest : List Lexeme), (r ⟨i, rest⟩).found = (r ⟨j, rest⟩).found

namespace Anchored

theorem token (kinds : List Terminal) : (token kinds).Anchored := by
  rintro i j (_ | ⟨l, rest⟩)
  · rfl
  · show (if kinds.contains l.kind then _ else _ : Readings Tree).found =
      (if kinds.contains l.kind then _ else _ : Readings Tree).found
    split <;> rfl

theorem none : (none : Reader α).Anchored := fun _ _ _ => rfl

theorem bind (h : r.Anchored) (f : α → Reader β) : (r >>= f).Anchored :=
  fun i j rest => bind_found_congr (h i j rest) f

theorem either (h : r.Anchored) (h' : s.Anchored) : (either r s).Anchored := by
  intro i j rest
  unfold Reader.either union
  rw [h i j rest, h' i j rest]

theorem oneOf {rs : List (Reader α)} (h : ∀ r ∈ rs, r.Anchored) : (oneOf rs).Anchored := by
  induction rs with
  | nil => exact none
  | cons r rs ih =>
    obtain ⟨hr, hrs⟩ := List.forall_mem_cons.1 h
    exact hr.either (ih hrs)

theorem node {parts : Reader (Rule × List Tree)} (h : parts.Anchored) : (node parts).Anchored :=
  fun i j rest => h.bind _ i j rest

theorem rule {parts : Reader (List Tree)} (h : parts.Anchored) (rule : Rule) : (Grammar.rule rule parts).Anchored :=
  (h.bind _).node

theorem all? (h : r.Anchored) (hrest : rest ≠ []) (i j : ℕ) : r.all? ⟨i, rest⟩ = r.all? ⟨j, rest⟩ := by
  have hlast : Cursor.last ⟨i, rest⟩ = Cursor.last ⟨j, rest⟩ := by
    unfold Cursor.last Cursor.stopAfter
    rw [List.getLast?_eq_some_getLast hrest]
    rfl
  unfold Reader.all? upTo?
  rw [h i j rest, hlast]

end Anchored

end Reader

namespace Grammar

variable {e : Reader Tree}

theorem anchored_primary : (primary e).Anchored := by
  have htoken : ∀ {γ : Type} {kinds : List Terminal} (f : Tree → Reader γ), (token kinds >>= f).Anchored :=
    fun f => (Anchored.token _).bind f
  have hskip : ∀ {γ : Type} {kind : Terminal} (f : Unit → Reader γ), (skip kind >>= f).Anchored :=
    fun f => (htoken _).bind f
  refine Anchored.oneOf ?_
  simp only [List.forall_mem_cons, List.not_mem_nil, false_implies, implies_true, and_true]
  exact ⟨.token _, (htoken _).node, (hskip _).rule _, (htoken _).node, (htoken _).node, (hskip _).rule _,
    (htoken _).rule _, (htoken _).rule _⟩

theorem anchored_instanceLevel : (instanceLevel e).Anchored := by
  have hname : qualifiedName.Anchored := ((Anchored.token _).bind _).rule _
  have hpostfix : (postfixLevel e).Anchored := ((hname.bind _).either (anchored_primary.bind _)).bind _
  have hsigns : ∀ n, (signs (postfixLevel e) n).Anchored := by
    rintro (_ | n)
    · exact hpostfix
    · exact hpostfix.either (((Anchored.token _).bind _).rule _)
  have hunary : (unaryLevel e).Anchored := fun i j rest => hsigns rest.length i j rest
  exact (((hunary.bind _).bind _).bind _).bind _

/-- A test by comparison or an operand, as it may stand behind the word `in` by itself. -/
def inTest (e : Reader Tree) : Reader Tree := either (simpleTest e) (instanceLevel e)

theorem anchored_inTest : (inTest e).Anchored := (((Anchored.token _).bind _).rule _).either anchored_instanceLevel

theorem descending_inTest (e : Reader Tree) (c : Cursor) : Descending (inTest e c).found :=
  descending_union (descending_rule _ _ _) _

theorem all?_inTest {c : Cursor} :
    (inTest e).all? c = ((simpleTest e).all? c).or ((instanceLevel e).all? c) :=
  all?_either (r := simpleTest e) (descending_rule _ _ _) _

theorem finds_inTest {k : ℕ} (he : e.Finds k Nonterminal.expression.language) :
    (inTest e).Finds (k + 1) Nonterminal.inTest.language := by
  rw [language_either rfl]
  exact (finds_simpleTest he).either (finds_instanceLevel he)

end Grammar

/-! ## Sources -/

/-- A source whose tokens are of a rule. -/
def IsOf (n : Nonterminal) (source : String) : Prop := ∃ ls, lex false source = ⟨ls, none⟩ ∧ ls ∈ n.language

/-- The word `in` at a place. -/
def inAt (p : ℕ) : Lexeme := ⟨.keyword .inWord, "in", p, p + 2⟩

/-- The two ways to write a target behind the word `in`. -/
inductive TargetForm where
  | plain
  | parenthesized

namespace TargetForm

def opening : TargetForm → List Char
  | .plain => []
  | .parenthesized => ['(']

def closing : TargetForm → List Char
  | .plain => []
  | .parenthesized => [')']

/-- A source of a form, for an operand and a target: the word stands behind `p` characters and the target behind
`k`. -/
def IsSource (form : TargetForm) (operand target source : String) (p k : ℕ) : Prop :=
  ∃ gap gap', Gap gap ∧ gap ≠ [] ∧ Gap gap' ∧ (form = .plain → gap' ≠ []) ∧
    source.toList = operand.toList ++
      (gap ++ ('i' :: 'n' :: (gap' ++ (form.opening ++ (target.toList ++ form.closing))))) ∧
    p = operand.length + gap.length ∧ k = p + 2 + gap'.length + form.opening.length

/-- The tokens behind the word. -/
inductive Row (k : ℕ) (es : List Lexeme) : TargetForm → List Lexeme → Prop where
  | plain : Row k es .plain (es.map (Lexeme.moved k))
  | parenthesized {opening closing : Lexeme} : opening.kind = .leftParen → opening.stop = k →
    closing.kind = .rightParen → Row k es .parenthesized (opening :: (es.map (Lexeme.moved k) ++ [closing]))

/-- The trees behind the word: a test in parentheses is a list of tests. -/
inductive Trees (t : Tree) : TargetForm → List Tree → Prop where
  | plain : Trees t .plain [t]
  | single {span : Option Span} : Trees t .parenthesized [.node .parenthesizedExpression span [t]]
  | listed {span span' : Option Span} {children : List Tree} {opening closing : Token} :
    t = .node .simplePositiveUnaryTest span' children → opening.kind = .leftParen → closing.kind = .rightParen →
      Trees t .parenthesized [.token opening, .node .positiveUnaryTests span [t], .token closing]

section Tokens

variable {form : TargetForm} {operand target source : String} {p k : ℕ} {xs es row : List Lexeme}

/-- The tokens of a target, with or without parentheses. -/
theorem tokens_target (form : TargetForm) (position : ℕ) (he : Tokens false 0 target.toList es)
    (hends : ¬ EndsInComment false target.toList) : ∃ row, form.Row (position + form.opening.length) es row ∧
      Tokens false position (form.opening ++ (target.toList ++ form.closing)) row := by
  have hmoved := he.moved (position + form.opening.length)
  rw [Nat.zero_add] at hmoved
  cases form with
  | plain =>
    refine ⟨_, .plain, ?_⟩
    rw [opening, closing, List.append_nil]
    exact hmoved
  | parenthesized =>
    have hclosed := hmoved.closed.resolve_right fun h => hends h.1
    exact ⟨_, .parenthesized rfl rfl rfl, .token (scans_of_scan rfl) rfl hclosed⟩

/-- **The tokens of a source**: those of the operand, the word, and those of the target. -/
theorem IsSource.tokens (h : form.IsSource operand target source p k) (hx : Tokens false 0 operand.toList xs)
    (hslash : xs.IsChain Lexeme.NoComment) (hxends : ¬ EndsInComment false operand.toList)
    (he : Tokens false 0 target.toList es) (heends : ¬ EndsInComment false target.toList) :
    ∃ row, form.Row k es row ∧ Tokens false 0 source.toList (xs ++ inAt p :: row) := by
  obtain ⟨gap, gap', hgap, hne, hgap', hplain, hsource, rfl, rfl⟩ := h
  obtain ⟨row, hrow, htokens⟩ := tokens_target form (operand.length + gap.length + 2 + gap'.length) he heends
  have happart : ∀ c ∈ (gap' ++ (form.opening ++ (target.toList ++ form.closing))).head?, isWordPart c = false := by
    cases gap' with
    | nil =>
      cases form with
      | plain => exact absurd rfl (hplain rfl)
      | parenthesized =>
        rintro c ⟨⟩
        decide
    | cons c gap' =>
      rintro d ⟨⟩
      exact isWordPart_of_blank (isBlank_of_isSpace (hgap' c List.mem_cons_self))
  have hword : Tokens false (operand.length + gap.length)
      (['i', 'n'] ++ (gap' ++ (form.opening ++ (target.toList ++ form.closing)))) (inAt _ :: row) :=
    .token (scans_in happart) rfl (tokens_gap hgap' htokens)
  obtain ⟨c, gap, rfl⟩ := List.exists_cons_of_ne_nil hne
  have hno : ∀ before, ¬ Straddles false before
      (c :: (gap ++ 'i' :: 'n' :: (gap' ++ (form.opening ++ (target.toList ++ form.closing))))) := fun _ =>
    not_straddles (c :: gap) (fun d hd => isBlank_of_isSpace (hgap d hd)) hne (by decide) (by decide)
      (by decide)
  have hleading := hx.leading_blank hslash (hgap c List.mem_cons_self) (.inr hxends) hno
  refine ⟨row, hrow, ?_⟩
  rw [hsource]
  refine hleading.tokens_iff.2 ⟨_, rfl, ?_⟩
  rw [String.length_toList, Nat.zero_add]
  exact tokens_gap hgap hword

end Tokens

end TargetForm

/-! ## Readings -/

/-- A comparison by the word `in` at a place. -/
def Tree.AsksAt (p : ℕ) (t : Tree) : Prop :=
  ∃ span left rest, t = .node .comparison span (left :: .token (inAt p).token :: rest)

theorem Nonterminal.productions_uncompared (n : Nonterminal) : n.isOperand = true → ∀ p ∈ n.productions,
    n.nodeOf? p ≠ some .comparison ∧
      (n.nodeOf? p = Option.none → Symbol.allOf (fun _ => true) Nonterminal.isOperand p.body = true) := by
  cases n <;> decide

/-- No operand is a comparison. -/
theorem Nonterminal.Tells.not_asks {w : List Lexeme} {t : Tree} (h : Nonterminal.instanceTest.Tells w t) (p : ℕ) :
    ¬ t.AsksAt p := by
  have hd : Derives false [.rule .instanceTest] w [t] := h.derives_last
  refine hd.forall_of_symbols (T := fun t => ¬ t.AsksAt p) (P := fun _ => true) (R := isOperand) ?_
    (fun n p rule hn hp hr w us => ?_) (fun n p hn hp => (productions_uncompared n hn p hp).2) rfl t
    (List.mem_singleton_self t)
  · rintro l - ⟨_, _, _, htoken⟩
    cases htoken
  · rintro ⟨_, _, _, hnode⟩
    cases hnode
    exact (productions_uncompared n hn p hp).1 hr

namespace ReadBy

variable {source : String} {ls : List Lexeme} {t : Tree}

/-- A target is a test by comparison or an operand. -/
theorem test_or_operand (h : ReadBy Grammar.inTest source ls t) :
    ReadBy Grammar.simpleTest source ls t ∨ ReadBy Grammar.instanceLevel source ls t := by
  have hread := h.read
  rw [Grammar.all?_inTest] at hread
  exact (Option.or_eq_some_iff.1 hread).imp (fun hread => ⟨h.tokens, hread⟩) fun hread => ⟨h.tokens, hread.2⟩

theorem tells_test (h : ReadBy Grammar.simpleTest source ls t) : Nonterminal.simplePositiveUnaryTest.Tells ls t :=
  (Grammar.yields_simpleTest (Grammar.yields_expression ls.length)).of_all? h.ordered h.read

/-- A test by comparison begins with its operator. -/
theorem relation (h : ReadBy Grammar.simpleTest source ls t) :
    (∃ span children, t = .node .simplePositiveUnaryTest span children) ∧ ∃ l ∈ ls.head?, l.kind ∈ relationKinds := by
  have hread := h.read
  unfold Grammar.simpleTest at hread
  rw [all?_rule] at hread
  obtain ⟨children, -, rfl⟩ := Option.map_eq_some_iff.1 hread
  exact ⟨⟨_, _, rfl⟩, (h.tells_test.comesOf rfl).relation⟩

theorem ne_nil (h : ReadBy Grammar.inTest source ls t) : ls ≠ [] := by
  rcases h.test_or_operand with htest | hoperand
  · exact htest.tells_test.ne_nil
  · exact hoperand.tells.ne_nil

end ReadBy

namespace Grammar

theorem isLevel_instanceLevel : IsLevel instanceLevel := ⟨fun _ _ => descending_read _ _ _, local_instanceLevel⟩

theorem isLevel_simpleTest : IsLevel simpleTest := ⟨fun _ _ => descending_rule _ _ _, local_simpleTest⟩

theorem isLevel_inTest : IsLevel inTest :=
  ⟨descending_inTest, fun h he he' => (local_simpleTest h he he').either (local_instanceLevel h he he')⟩

/-- Tokens behind no character are the tokens. -/
theorem map_moved_zero (ls : List Lexeme) : ls.map (Lexeme.moved 0) = ls := List.map_id ls

section Targets

variable {form : TargetForm} {operand target : String} {k n i : ℕ} {xs es row : List Lexeme} {x t : Tree}
  {word : Lexeme} {ts : List Tree}

/-- A test by comparison that uses all tokens is a list of tests. -/
theorem all?_tests_of_simple {e : Reader Tree} {c : Cursor} (he : e.Yields Nonterminal.expression.Tells)
    (ho : c.Ordered) (h : (simpleTest e).all? c = some t) :
    ∃ span, (tests e).all? c = some (.node .positiveUnaryTests span [t]) := by
  have hsimple : Descending (simpleTest e c).found := descending_rule _ _ _
  have htest : (either (simpleTest e) e).all? c = some t := by rw [all?_either hsimple, h, Option.some_or]
  have hitems := all?_separated ((yields_simpleTest he).steady.either he.steady) (descending_union hsimple _) ho htest
  unfold tests
  rw [all?_rule, hitems]
  exact ⟨_, rfl⟩

section Closed

variable {opening closing : Lexeme} (hopening : opening.kind = .leftParen) (hclosing : closing.kind = .rightParen)
  (ho : Cursor.Ordered ⟨i, opening :: (es.map (Lexeme.moved opening.stop) ++ [closing])⟩) (hn : es.length < n)

/-- The tokens within parentheses are in order, where they stand in the row. -/
theorem ordered_closed (ho : Cursor.Ordered ⟨i, opening :: (es.map (Lexeme.moved opening.stop) ++ [closing])⟩) :
    (Cursor.within ⟨opening.stop, [closing]⟩ ⟨0, es⟩).Ordered := by
  rw [← within_moved]
  exact ho.passes (w := [opening]) (.singleton rfl)

include hopening hclosing ho hn in
/-- **An operand in parentheses** is an expression in parentheses. -/
theorem all?_operand_closed (h : ReadBy instanceLevel target es t) : ∃ span, (instanceLevel (expression n)).all?
    ⟨i, opening :: (es.map (Lexeme.moved opening.stop) ++ [closing])⟩ =
      some (.node .parenthesizedExpression span [t.moved opening.stop]) := by
  have hplace := within_moved opening.stop es [closing]
  have hhead : Cursor.HeadIn ⟨i, opening :: (es.map (Lexeme.moved opening.stop) ++ [closing])⟩ [.leftParen] :=
    Cursor.headIn_of_rest rfl (List.mem_singleton.2 hopening)
  obtain ⟨span, hspan⟩ := all?_parenthesized (σ := ⟨opening.stop, [closing]⟩)
    (d := ⟨i, opening :: (es.map (Lexeme.moved opening.stop) ++ [closing])⟩) (local_expression hn) rfl hclosing
    (descending_expression _ _) (ordered_closed ho) (Nat.lt_succ_self _) (by rw [← hplace]) hopening
    (by rw [← hplace]) h.alone.read
  exact ⟨span, all?_instanceLevel (yields_expression n) ho (avoids_one hhead (by decide))
    ((all?_congr (primary_found hhead)).trans hspan)⟩

include hopening hclosing ho hn in
/-- **A test by comparison in parentheses** is a list of tests, since no operand begins with the operator. -/
theorem all?_test_closed (h : ReadBy simpleTest target es t) :
    (instanceLevel (expression n)).all? ⟨i, opening :: (es.map (Lexeme.moved opening.stop) ++ [closing])⟩ =
      Option.none ∧
    ∃ span, ∀ word, (listed (expression n) word).all?
      ⟨i, opening :: (es.map (Lexeme.moved opening.stop) ++ [closing])⟩ = some [word, .token opening.token,
        .node .positiveUnaryTests span [t.moved opening.stop], .token closing.token] := by
  have hplace := within_moved opening.stop es [closing]
  have hlocal : Local ⟨opening.stop, [closing]⟩ (es.length + 1) (Tree.moved opening.stop)
    (expression (es.length + 1)) (expression n) := local_expression hn
  obtain ⟨-, l, hl, hkind⟩ := h.relation
  obtain ⟨more, rfl⟩ := List.head?_eq_some_iff.1 hl
  refine ⟨no_operand_at_relation (j := l.moved opening.stop) rfl hopening hkind n, ?_⟩
  have hread := h.read_behind isLevel_simpleTest (Nat.le_succ _) 0
  rw [map_moved_zero, Tree.moved_zero] at hread
  obtain ⟨span, htests⟩ := all?_tests_of_simple (yields_expression _) h.ordered hread
  have hlisted := all?_listed (d := ⟨i, opening :: ((l :: more).map (Lexeme.moved opening.stop) ++ [closing])⟩)
    (local_tests hlocal (yields_expression _) (yields_expression _)) rfl hclosing (ordered_closed ho)
    (Nat.lt_succ_self _) (by rw [← hplace]) hopening (by rw [← hplace]) htests
  exact ⟨span.map (Span.moved opening.stop), fun word => (hlisted word).trans (congrArg
    (fun u => some [word, .token opening.token, u, .token closing.token]) moved_node)⟩

end Closed

/-- **The target behind the word**, with or without parentheses. -/
theorem all?_target (h : ReadBy inTest target es t) (hrow : form.Row k es row) (ho : Cursor.Ordered ⟨word.stop, row⟩)
    (hn : es.length < n) (hword : word.kind = .keyword .inWord) : ∃ ts, form.Trees (t.moved k) ts ∧
      ∀ i, (comparisonRest (expression n)).all? ⟨i, word :: row⟩ = some (.token word.token :: ts) := by
  cases hrow with
  | plain =>
    have hbehind := h.read_behind isLevel_inTest hn.le k
    rw [anchored_inTest.all? (List.map_eq_nil_iff.not.2 h.ne_nil) k word.stop] at hbehind
    refine ⟨_, .plain, fun i => ?_⟩
    rw [all?_comparisonRest_in rfl hword, ← all?_inTest, hbehind]
    rfl
  | @parenthesized opening closing hopening hstop hclosing =>
    subst hstop
    have hhead : Cursor.HeadIn ⟨word.stop, opening :: (es.map (Lexeme.moved opening.stop) ++ [closing])⟩
      [.leftParen] := Cursor.headIn_of_rest rfl (List.mem_singleton.2 hopening)
    rcases h.test_or_operand with htest | hoperand
    · obtain ⟨⟨span, children, ht⟩, -⟩ := htest.relation
      obtain ⟨hnone, span', hlisted⟩ := all?_test_closed hopening hclosing ho hn htest
      refine ⟨[.token opening.token, .node .positiveUnaryTests span' [t.moved opening.stop], .token closing.token],
        .listed ((congrArg (Tree.moved opening.stop) ht).trans moved_node) hopening hclosing, fun i => ?_⟩
      rw [all?_comparisonRest rfl hword hhead, hnone, Option.map_none, Option.none_or]
      exact hlisted _
    · obtain ⟨span, hspan⟩ := all?_operand_closed hopening hclosing ho hn hoperand
      refine ⟨[.node .parenthesizedExpression span [t.moved opening.stop]], .single, fun i => ?_⟩
      rw [all?_comparisonRest rfl hword hhead, hspan]
      rfl

/-- What goes on behind an operand begins with its first token. -/
theorem yields_headed {e : Reader Tree} (he : e.Yields Nonterminal.expression.Tells) :
    (comparisonRest e).Yields fun w ts => ∃ l ∈ w.head?, ts.head? = some (.token l.token) := by
  have hoperand := (yields_instanceLevel he).steady
  refine yields_oneOf ?_
  simp only [List.forall_mem_cons, List.not_mem_nil, false_implies, implies_true, and_true]
  refine ⟨?_, ?_, ?_⟩
  · exact yields_token_bind fun l _ => Yields.bind hoperand fun _ _ _ => yields_pure ⟨l, rfl, rfl⟩
  · exact yields_token_bind fun l _ => Yields.bind hoperand fun _ _ _ => yields_token_bind fun _ _ =>
      Yields.bind hoperand fun _ _ _ => yields_pure ⟨l, rfl, rfl⟩
  · refine yields_token_bind fun l _ => .either ?_ ?_
    · exact Yields.bind ((yields_simpleTest he).steady.either hoperand) fun _ _ _ => yields_pure ⟨l, rfl, rfl⟩
    · exact yields_token_bind fun _ _ => (yields_tests he).bind fun _ _ _ => yields_token_bind fun _ _ =>
        yields_pure ⟨l, rfl, rfl⟩

/-- **The readings of an operand at the start of a longer row**: it is read there as it is by itself, behind the
readings that end later. -/
theorem found_operand (h : ReadBy instanceLevel operand xs x) (hn : xs.length ≤ n) (ho : Cursor.Ordered ⟨0, xs ++ row⟩) :
    ∃ far others, (instanceLevel (expression n) ⟨0, xs ++ row⟩).found =
      far ++ (x, ⟨Cursor.last ⟨0, xs⟩, row⟩) :: others ∧ ∀ y ∈ far, Cursor.last ⟨0, xs⟩ < y.2.stop := by
  have hplace := within_moved 0 xs row
  rw [map_moved_zero] at hplace
  have hlocal : Local ⟨0, row⟩ (xs.length + 1) (Tree.moved 0) (instanceLevel (expression xs.length))
      (instanceLevel (expression n)) := isLevel_instanceLevel.alike (local_expression hn) (yields_expression _)
    (yields_expression _)
  obtain ⟨others, hfound⟩ := found_of_all? hlocal.steady (descending_read _ _ _) h.ordered h.read
  obtain ⟨-, far, hreadings, hfar⟩ := hlocal.embeds ⟨0, xs⟩ (by rwa [← hplace]) (Nat.lt_succ_self _)
  refine ⟨far, others.map (placed ⟨0, row⟩ (Tree.moved 0)), ?_, hfar⟩
  rw [hplace, hreadings, hfound, List.map_cons, placed, Tree.moved_zero]
  rfl

/-- A longer first part goes on with the token behind the shorter one. -/
theorem span_of_far {l : Lexeme} {w : List Lexeme} {d : Cursor} (ho : Cursor.Ordered ⟨0, xs ++ l :: row⟩)
    (hw : Cursor.Passes ⟨0, xs ++ l :: row⟩ w d) (hfar : Cursor.last ⟨0, xs⟩ < d.stop) :
    ∃ v, w = xs ++ l :: v ∧ row = v ++ d.rest := by
  have hrest : xs ++ l :: row = w ++ d.rest := hw.rest
  have hstop : d.stop = Cursor.stopAfter 0 w := hw.stop
  rcases List.append_eq_append_iff.1 hrest with ⟨s, rfl, hs⟩ | ⟨s, rfl, -⟩
  · cases s with
    | nil =>
      rw [hstop, List.append_nil] at hfar
      exact absurd hfar (lt_irrefl _)
    | cons k v =>
      obtain ⟨rfl, rfl⟩ := List.cons.inj hs
      exact ⟨v, rfl, rfl⟩
  · -- a part of the first tokens ends no later than they do
    have hpasses : Cursor.Passes ⟨0, w ++ s⟩ w ⟨d.stop, s⟩ := ⟨rfl, hstop⟩
    have hordered : Cursor.Ordered ⟨0, w ++ s⟩ :=
      ho.sublist (((List.sublist_append_left _ _).map _).cons_cons _)
    exact absurd hfar (Nat.not_lt.2 (hpasses.stop_le hordered))

/-- **An operand, the word and a target** are a comparison by this word, unless a longer operand goes on behind it. -/
theorem all?_asking {p : ℕ} (h : ReadBy instanceLevel operand xs x) (hn : xs.length ≤ n)
    (ho : Cursor.Ordered ⟨0, xs ++ inAt p :: row⟩)
    (hrest : ∀ i, (comparisonRest (expression n)).all? ⟨i, inAt p :: row⟩ = some (.token (inAt p).token :: ts)) :
    ∃ u, (comparisonLevel (expression n)).all? ⟨0, xs ++ inAt p :: row⟩ = some u ∧
      (u.AsksAt p → ∃ span, u = .node .comparison span (x :: .token (inAt p).token :: ts)) ∧
      (¬ u.AsksAt p → ∃ v, v <+: row ∧ xs ++ inAt p :: v ∈ Nonterminal.instanceTest.language) := by
  have he := yields_expression n
  have hyields := yields_instanceLevel he
  rw [all?_comparisonLevel_eq]
  cases hall : (instanceLevel (expression n)).all? ⟨0, xs ++ inAt p :: row⟩ with
  | some u =>
    have htells := hyields.of_all? ho hall
    exact ⟨u, rfl, fun hasks => absurd hasks (htells.not_asks p), fun _ => ⟨row, List.prefix_refl row, _, htells⟩⟩
  | none =>
    obtain ⟨far, others, hfound, hfar⟩ := found_operand h hn ho
    have hnear : (extend .comparison x (comparisonRest (expression n))).all? ⟨Cursor.last ⟨0, xs⟩, inAt p :: row⟩ = _ :=
      (all?_extend .comparison x _).trans (congrArg (Option.map _) (hrest _))
    rw [Option.none_or, all?_bind hyields.steady, hfound, List.findSome?_append, List.findSome?_cons, hnear]
    cases hlonger : far.findSome? fun y => (extend .comparison y.1 (comparisonRest (expression n))).all? y.2 with
    | none => exact ⟨_, rfl, fun _ => ⟨_, rfl⟩, fun hnot => absurd ⟨_, _, _, rfl⟩ hnot⟩
    | some u =>
      obtain ⟨y, hy, hu⟩ := List.exists_of_findSome?_eq_some hlonger
      obtain ⟨w, hw, htells⟩ := (hyields _).spans y (by rw [hfound]; exact List.mem_append_left _ hy)
      obtain ⟨v, rfl, rfl⟩ := span_of_far ho hw (hfar y hy)
      refine ⟨u, rfl, fun hasks => ?_, fun _ => ⟨v, List.prefix_append v _, _, htells⟩⟩
      -- it is a comparison by a token further on
      rw [all?_extend] at hu
      obtain ⟨parts, hparts, rfl⟩ := Option.map_eq_some_iff.1 hu
      obtain ⟨l, hl, hhead⟩ := (yields_headed he).of_all? (ho.passes hw) hparts
      obtain ⟨_, _, more, hnode⟩ := hasks
      obtain ⟨-, -, hchildren⟩ := Tree.node.inj hnode
      obtain ⟨-, rfl⟩ := List.cons.inj hchildren
      have hstop : p + 2 = l.stop :=
        congrArg Span.stop (Option.some.inj (Token.mk.inj (Tree.token.inj (Option.some.inj hhead))).2.2)
      have hstops := (List.pairwise_append.1 (List.pairwise_map.1 (List.pairwise_cons.1 ho).2)).2.1
      have hbehind : (inAt p).stop < l.stop :=
        (List.pairwise_cons.1 hstops).1 l (List.mem_append_right v (List.mem_of_mem_head? hl))
      exact absurd hstop hbehind.ne

end Targets

end Grammar

/-! ## The two sources -/

section Sources

variable {form : TargetForm} {operand target source : String} {p k : ℕ} {xs es row : List Lexeme} {x t : Tree}

/-- A source that is read as an operand is one. -/
theorem ReadBy.isOf_operand (h : ReadBy Grammar.instanceLevel source es t) : IsOf .instanceTest source :=
  ⟨es, lex_eq_iff.2 h.tokens, _, h.tells⟩

/-- An operand of the grammar is read. -/
theorem IsOf.exists_operand (h : IsOf .instanceTest source) : ∃ ls t, ReadBy Grammar.instanceLevel source ls t := by
  obtain ⟨ls, hlex, hlanguage⟩ := h
  exact ⟨ls, ReadBy.exists_of_mem Grammar.isLevel_instanceLevel
    (Grammar.finds_instanceLevel (Grammar.finds_expression ls.length)) (lex_eq_iff.1 hlex) hlanguage⟩

/-- A target of the grammar is read. -/
theorem IsOf.exists_target (h : IsOf .inTest source) : ∃ ls t, ReadBy Grammar.inTest source ls t := by
  obtain ⟨ls, hlex, hlanguage⟩ := h
  exact ⟨ls, ReadBy.exists_of_mem Grammar.isLevel_inTest
    (Grammar.finds_inTest (Grammar.finds_expression ls.length)) (lex_eq_iff.1 hlex) hlanguage⟩

/-- Whether a source is read as an operand. -/
def isOperand (source : String) : Bool :=
  match lex false source with
  | ⟨ls, Option.none⟩ => ((Grammar.instanceLevel (Grammar.expression ls.length)).all? ⟨0, ls⟩).isSome
  | ⟨_, some _⟩ => false

/-- **It can be computed whether a source is an operand.** -/
theorem isOf_operand_iff : IsOf .instanceTest source ↔ isOperand source = true := by
  constructor
  · intro h
    obtain ⟨ls, t, hread⟩ := h.exists_operand
    unfold isOperand
    rw [lex_eq_iff.2 hread.tokens]
    exact Option.isSome_iff_exists.2 ⟨t, hread.read⟩
  · intro h
    unfold isOperand at h
    split at h
    · rename_i ls hlex
      obtain ⟨t, ht⟩ := Option.isSome_iff_exists.1 h
      exact ReadBy.isOf_operand ⟨lex_eq_iff.1 hlex, ht⟩
    · cases h

instance : Decidable (IsOf .instanceTest source) := decidable_of_iff _ isOf_operand_iff.symm

/-- An operand may stand behind the word. -/
theorem IsOf.isTarget (h : IsOf .instanceTest source) : IsOf .inTest source := by
  obtain ⟨ls, hlex, hlanguage⟩ := h
  refine ⟨ls, hlex, ?_⟩
  rw [language_either rfl]
  exact .inr hlanguage

namespace TargetForm

theorem Row.length_le (h : form.Row k es row) : es.length ≤ row.length := by
  cases h with
  | plain => exact (List.length_map _).ge
  | parenthesized =>
    rw [List.length_cons, List.length_append, List.length_map]
    omega

/-- Parentheses open no interval. -/
theorem Row.unopened (h : form.Row k es row) (hclear : Unopened xs es) : Unopened xs row := by
  refine ⟨hclear.undotted, fun hclosing => ?_⟩
  have htarget : ∀ l ∈ es.map (Lexeme.moved k), l.kind ≠ .dots :=
    List.forall_mem_map.2 (hclear.unopened hclosing)
  cases h with
  | plain => exact htarget
  | parenthesized hopening _ hclosing =>
    refine List.forall_mem_cons.2 ⟨by rw [hopening]; decide, List.forall_mem_append.2 ⟨htarget, ?_⟩⟩
    exact List.forall_mem_singleton.2 (by rw [hclosing]; decide)

/-- **The tree of a source**: a comparison of the operand with the target by the word, where the operand and the
target are read as they are by themselves, unless a longer operand goes on behind the word. -/
theorem IsSource.reads (h : form.IsSource operand target source p k)
    (hx : ReadBy Grammar.instanceLevel operand xs x) (hxends : ¬ EndsInComment false operand.toList)
    (ht : ReadBy Grammar.inTest target es t) (htends : ¬ EndsInComment false target.toList) :
    ∃ row u, form.Row k es row ∧ Alone source (xs ++ inAt p :: row) u ∧
      (u.AsksAt p → ∃ span ts, form.Trees (t.moved k) ts ∧
        u = .node .comparison span (x :: .token (inAt p).token :: ts)) ∧
      (¬ u.AsksAt p → ∃ v, v <+: row ∧ xs ++ inAt p :: v ∈ Nonterminal.instanceTest.language) := by
  have hd : Derives false [.rule .instanceTest] xs [x] := hx.tells.derives_last
  obtain ⟨row, hrow, htokens⟩ := h.tokens hx.tokens (hd.no_comment (by decide)).1 hxends ht.tokens htends
  have ho : Cursor.Ordered ⟨0, xs ++ inAt p :: row⟩ := htokens.ordered
  have hwidth : (xs ++ inAt p :: row).length = xs.length + (row.length + 1) := List.length_append
  have hle := hrow.length_le
  have hpasses : Cursor.Passes ⟨0, xs ++ inAt p :: row⟩ (xs ++ [inAt p]) ⟨(inAt p).stop, row⟩ :=
    ⟨(List.append_assoc _ [inAt p] row).symm, by simp [Cursor.stopAfter]⟩
  obtain ⟨ts, hts, hrest⟩ := Grammar.all?_target (n := (xs ++ inAt p :: row).length) ht hrow (ho.passes hpasses)
    (by omega) rfl
  obtain ⟨u, hu, hasks, hnot⟩ := Grammar.all?_asking hx (by omega) ho hrest
  obtain ⟨l, hl, hkind⟩ := hx.starts
  refine ⟨row, u, hrow, ⟨htokens, Grammar.all?_expressionLevel (Grammar.yields_expression _) ho (fun j hj => ?_) hu⟩,
    fun hasked => ?_, hnot⟩
  · have hhead : j = l := by
      have hj : j ∈ (xs ++ inAt p :: row).head? := hj
      rw [List.head?_append, hl] at hj
      exact Option.mem_unique hj rfl
    rw [hhead]
    exact fun hloop => hkind (List.mem_append_left _ hloop)
  · obtain ⟨span, hspan⟩ := hasks hasked
    exact ⟨span, ts, hts, hspan⟩

end TargetForm

end Sources

end Criterion

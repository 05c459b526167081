import Criterion.Proofs.Building
import Criterion.Proofs.Longest
import Criterion.Proofs.Verdicts

/-!
# One expression as a test

A source that is one expression is also a list of one test, and it is read and evaluated alike both
ways: the word `not` apart, which is reserved among tests only.

* `lex_unary`: without a name `not`, a source has the same tokens both ways.
* `Derives.starts_plain`: no expression starts with a comparison operator, so it is never read as a test
  by comparison.
* `parse_lone`: **a source that is one expression has the same tree as a test.**
* `lone_test_agrees`: **its answer as a test is what its value says about the tested one.**
-/

namespace Criterion

/-! ## Tokens -/

namespace Lexer

/-- What stands at the head of a text, unless it is the word `not`. -/
theorem scan_unary (cs : List Char) : scan? true cs = scan? false cs ∨
    ∃ n, scan? false cs = some (.identifier, n) ∧ String.ofList (cs.take n) = "not" := by
  by_cases hkind : wordKind true (cs.takeWhile isWordPart) =
      wordKind false (cs.takeWhile isWordPart)
  · left
    unfold scan?
    rw [word?_eq, word?_eq, hkind]
  · -- the word is the only one that has another kind among tests
    have hword : wordKind false (cs.takeWhile isWordPart) = .identifier ∧
        String.ofList (cs.takeWhile isWordPart) = "not" := by
      unfold wordKind at hkind ⊢
      cases hspelling : Keyword.ofSpelling? (String.ofList (cs.takeWhile isWordPart)) with
      | some k => simp [hspelling] at hkind
      | none => simpa [hspelling] using hkind
    unfold scan?
    rw [word?_eq, word?_eq]
    generalize phrases.findSome? _ = phrase
    cases phrase with
    | some found => exact .inl rfl
    | none =>
      by_cases hstart : cs.head?.any isWordStart = true
      · right
        refine ⟨(cs.takeWhile isWordPart).length, ?_, ?_⟩
        · rw [if_pos hstart, hword.1]
          rfl
        · have htake : cs.take (cs.takeWhile isWordPart).length = cs.takeWhile isWordPart :=
            List.prefix_iff_eq_take.1 (List.takeWhile_prefix _) |>.symm
          rw [htake, hword.2]
      · left
        rw [if_neg hstart, if_neg hstart]

end Lexer

theorem lexFrom_unary (fuel : ℕ) : ∀ position cs,
    (∀ l ∈ (lexFrom false position fuel cs).lexemes, l.kind = .identifier → l.text ≠ "not") →
      lexFrom true position fuel cs = lexFrom false position fuel cs := by
  induction fuel with
  | zero => exact fun _ _ _ => rfl
  | succ fuel ih =>
    intro position cs hno
    cases cs with
    | nil => rfl
    | cons c cs =>
      simp only [lexFrom] at hno ⊢
      rcases Lexer.scan_unary (c :: cs) with hsame | ⟨n, hscan, hword⟩
      · rw [hsame]
        cases hscan : Lexer.scan? false (c :: cs) with
        | none => rfl
        | some found =>
          obtain ⟨kind, n⟩ := found
          rw [hscan] at hno
          by_cases htrivia : kind.isTrivia = true
          · simp only [htrivia, if_true] at hno ⊢
            exact ih _ _ hno
          · simp only [htrivia, Bool.false_eq_true, if_false] at hno ⊢
            rw [ih _ _ fun l hl => hno l (List.mem_cons_of_mem _ hl)]
      · rw [hscan] at hno
        exact absurd hword (hno _ List.mem_cons_self rfl)

/-- **Without a name `not`, a source has the same tokens both ways.** -/
theorem lex_unary {source : String}
    (h : ∀ l ∈ (lex false source).lexemes, l.kind = .identifier → l.text ≠ "not") :
    lex true source = lex false source := lexFrom_unary _ _ _ h

/-! ## Where expressions start -/

/-- The comparison operators. -/
def relationKinds : List Terminal := [.equal, .differs, .atMost, .atLeast, .less, .greater]

namespace Nonterminal

/-- Whether a rule never starts with a comparison operator. -/
def startsPlain : Nonterminal → Bool
  | .unaryTests | .positiveUnaryTests | .positiveUnaryTest | .simplePositiveUnaryTest | .inTest
  | .compareOp => false
  | _ => true

end Nonterminal

/-- Whether a body starts with a token of other kinds, or with one of some rules. -/
def Symbol.startsOutside (kinds : List Terminal) (R : Nonterminal → Bool) : List Symbol → Bool
  | .named own :: _ | .text own :: _ => own.all (· ∉ kinds)
  | .rule n :: _ => R n
  | _ => false

/-- No derivation from such a body starts with a token of the kinds, if the rules have such bodies. -/
theorem Derives.starts_outside {kinds : List Terminal} {R : Nonterminal → Bool} {keeps : Bool} {body : List Symbol}
    {w : List Lexeme} {ts : List Tree}
    (hR : ∀ n, R n = true → ∀ p ∈ Nonterminal.productions n, Symbol.startsOutside kinds R p.body = true)
    (h : Derives keeps body w ts) (hbody : Symbol.startsOutside kinds R body = true) :
    ∃ l ∈ w.head?, l.kind ∉ kinds := by
  induction h with
  | nil | absent | present | done | again => cases hbody
  | named hl _ _ | kept hl _ _ | dropped hl _ _ =>
    exact ⟨_, rfl, by simpa using List.all_eq_true.1 hbody _ hl⟩
  | @rule _ n p _ v _ _ _ hp _ _ ih _ =>
    obtain ⟨l, hl, hkind⟩ := ih (hR n hbody p hp)
    refine ⟨l, ?_, hkind⟩
    rw [List.head?_append, hl]
    rfl

/-- Whether a body starts with a symbol that does not start with a comparison operator. -/
def Symbol.startPlain : List Symbol → Bool := Symbol.startsOutside relationKinds Nonterminal.startsPlain

theorem productions_startPlain (n : Nonterminal) : n.startsPlain = true →
    ∀ p ∈ n.productions, Symbol.startPlain p.body = true := by
  cases n <;> decide

/-- No derivation from such a body starts with a comparison operator. -/
theorem Derives.starts_plain {keeps : Bool} {body : List Symbol} {w : List Lexeme} {ts : List Tree}
    (h : Derives keeps body w ts) (hbody : Symbol.startPlain body = true) :
    ∃ l ∈ w.head?, l.kind ∉ relationKinds := h.starts_outside productions_startPlain hbody

/-! ## One expression among tests -/

namespace Reader

open Readings

variable {item : Reader Tree} {P : List Lexeme → Tree → Prop} {c d : Cursor} {x : Tree}

/-- A list of one item is that item. -/
theorem mem_of_separated (h : item.Yields P) (hx : ([x], d) ∈ (separated item c).found) :
    (x, d) ∈ (item c).found := by
  obtain ⟨⟨first, e⟩, hfirst, hchain⟩ := Readings.of_mem_bind hx
  -- each further item makes the list longer
  let Grown (w : List Lexeme) (items : List Tree) : Prop :=
    (w = [] ∧ items = [first]) ∨ 2 ≤ items.length
  have hgrown : (chain (fun items => do
      skip .comma
      let next ← item
      return items ++ [next]) [first]).Yields fun w items => Grown ([] ++ w) items := by
    refine yields_chain (fun u items hitems => ?_) (.inl ⟨rfl, rfl⟩)
    refine yields_skip_bind fun l _ => h.bind fun v next _ => yields_pure (.inr ?_)
    rcases hitems with ⟨-, rfl⟩ | hlength
    · exact le_rfl
    · rw [List.length_append]
      omega
  obtain ⟨w, hw, hitems⟩ := (hgrown e).spans _ hchain
  rcases hitems with ⟨rfl, hsingle⟩ | hlength
  · obtain rfl := (List.singleton_inj.1 hsingle)
    have hrest : e.rest = d.rest := hw.rest
    have hstop : d.stop = e.stop := hw.stop
    obtain ⟨stop, rest⟩ := d
    obtain ⟨stop', rest'⟩ := e
    cases hrest
    cases hstop
    exact hfirst
  · exact absurd hlength (by simp)

/-- An item that uses all tokens is a list by itself, whatever else can be read. -/
theorem upTo_separated (h : ∃ rest, (item c).found = (x, d) :: rest) (hd : d.rest = []) :
    (separated item c).upTo? d.stop = some ([x], d) := by
  obtain ⟨rest, hfound⟩ := h
  have hbind : separated item c = (item c).bind fun first => chain (fun items => do
      skip .comma
      let next ← item
      return items ++ [next]) [first] := rfl
  rw [hbind, upTo_bind, hfound, List.findSome?_cons, upTo_chain_end _ _ hd]

/-- Without a token of a kind at its place, a reader has no reading. -/
theorem token_found_nil {kinds : List Terminal} {l : Lexeme} (hl : l ∈ c.rest.head?)
    (hkind : l.kind ∉ kinds) : (token kinds c).found = [] := by
  unfold token
  cases hrest : c.rest with
  | nil => rfl
  | cons k rest =>
    rw [hrest] at hl
    cases hl
    simp [hkind]

end Reader

namespace Grammar

open Reader Readings

variable {e : Reader Tree} {c d : Cursor} {x : Tree}

theorem descending_expression (fuel : ℕ) (c : Cursor) :
    Descending (expression fuel c).found := by
  cases fuel with
  | zero => exact List.Pairwise.nil
  | succ fuel => exact descending_union (descending_rule _ _ _) _

/-- What is no comparison operator starts no test by comparison. -/
theorem simpleTest_found_nil {l : Lexeme} (hl : l ∈ c.rest.head?) (hkind : l.kind ∉ relationKinds) :
    (simpleTest e c).found = [] := by
  have hrelation : (relation c).found = [] := token_found_nil hl hkind
  exact rule_found_nil (bind_found_nil hrelation _)

/-- An expression that uses all tokens is the first reading of a test. -/
theorem test_found (he : (x, d) ∈ (e c).found) (hdesc : Descending (e c).found)
    (hlast : ∀ y ∈ (e c).found, y.2.stop ≤ d.stop) (hsimple : (simpleTest e c).found = []) :
    ∃ rest, (either (simpleTest e) e c).found = (x, d) :: rest := by
  have hmem : ∀ y ∈ (either (simpleTest e) e c).found, y ∈ (e c).found := by
    intro y hy
    rcases of_mem_union hy with hy | hy
    · rw [hsimple] at hy
      exact absurd hy List.not_mem_nil
    · exact hy
  obtain ⟨rest, hfound⟩ := hdesc.head he hlast
  have hsimple' : Descending (simpleTest e c).found := descending_rule _ _ _
  have hread : (either (simpleTest e) e c).upTo? d.stop = some (x, d) := by
    unfold either
    rw [upTo_union hsimple', upTo?, hsimple, upTo?, hfound, List.find?_nil, Option.none_or]
    exact List.find?_cons_of_pos (by simp)
  have hsorted : Descending (either (simpleTest e) e c).found := descending_union hsimple' _
  exact hsorted.head (List.mem_of_find?_eq_some hread) fun y hy => hlast y (hmem y hy)

/-- **An expression that uses all tokens is read as the only test.** -/
theorem unaryTests_upTo (he : ∃ rest, (either (simpleTest e) e c).found = (x, d) :: rest)
    (hd : d.rest = []) :
    let span := c.rest.head?.map fun l => (⟨l.start, d.stop⟩ : Span)
    (unaryTests e c).upTo? d.stop =
      some (.node .unaryTests span [.node .positiveUnaryTests span [x]], d) := by
  intro span
  have htests : (tests e c).upTo? d.stop = some (.node .positiveUnaryTests span [x], d) := by
    unfold tests
    rw [upTo_rule, upTo_separated he hd]
    rfl
  have hfirst : (do return [← tests e] : Reader (List Tree)) c =
      (tests e c).bind fun t => pure [t] := rfl
  unfold unaryTests
  rw [upTo_rule, oneOf, List.foldr_cons, either, hfirst, upTo_union (descending_bind _ _),
    upTo_bind_single (g := fun t _ => [t]) (fun _ _ => rfl), htests]
  rfl

end Grammar

/-- Where all tokens are read as one expression, they are read as one test. -/
theorem complete_lone {e : Reader Tree} (he : e.Yields Nonterminal.expression.Tells) {c : Cursor}
    (ho : c.Ordered) (hdesc : Readings.Descending (e c).found) {span : Option Span} {x : Tree}
    (h : (Grammar.expressions e c).complete? = some (.node .expressions span [x])) :
    Nonterminal.expression.Tells c.rest x ∧ (Grammar.unaryTests e c).complete? =
      some (.node .unaryTests span [.node .positiveUnaryTests span [x]]) := by
  rw [complete_eq_upTo (Grammar.yields_expressions he) ho] at h
  unfold Grammar.expressions at h
  rw [Reader.upTo_rule, Option.map_map] at h
  obtain ⟨⟨items, d⟩, hitems, hnode⟩ := Option.map_eq_some_iff.1 h
  obtain ⟨-, rfl, rfl⟩ := Tree.node.inj hnode
  -- the list of expressions has one item, which is an expression that uses all tokens
  have hstop : d.stop = Cursor.stopAfter c.stop c.rest := by simpa using List.find?_some hitems
  have hx : (x, d) ∈ (e c).found := Reader.mem_of_separated he (List.mem_of_find?_eq_some hitems)
  obtain ⟨w, hw, htells⟩ := (he c).spans _ hx
  have hrest : d.rest = [] := (hw.rest_nil_iff ho).2 hstop
  have hall : c.rest = w := by simpa [hrest] using hw.rest
  rw [← hall] at htells
  have hderives : Derives false [.rule .expression] c.rest [x] := htells.derives_last
  obtain ⟨l, hl, hkind⟩ := hderives.starts_plain rfl
  -- no reading of an expression goes on behind the last token, so this one comes first
  have hlast : ∀ y ∈ (e c).found, y.2.stop ≤ d.stop := by
    intro y hy
    obtain ⟨v, hv, -⟩ := (he c).spans y hy
    rw [hstop]
    exact hv.stop_le ho
  have htest := Grammar.test_found hx hdesc hlast (Grammar.simpleTest_found_nil hl hkind)
  refine ⟨htells, ?_⟩
  rw [complete_eq_upTo (Grammar.yields_unaryTests he) ho, ← hstop,
    Grammar.unaryTests_upTo htest hrest]
  rfl

/-- The names of a tree of expressions are those among its tokens. -/
theorem mem_leaves_of_identifier {ls : List Lexeme} {t : Tree} {n : Nonterminal} (h : n.Tells ls t)
    {l : Lexeme} (hl : l ∈ ls) (hkind : l.kind = .identifier) : l.token ∈ t.leaves := by
  have hnamed : l.token.kind.isNamed = true := by
    change l.kind.isNamed = true
    rw [hkind]
    rfl
  have hmem : l.token ∈ (ls.map (·.token)).filter (·.kind.isNamed) :=
    List.mem_filter.2 ⟨List.mem_map_of_mem hl, hnamed⟩
  rw [← h.leaves_named] at hmem
  exact (List.mem_filter.1 hmem).1

/-- **A source that is one expression has the same tree as a test**, if `not` is no name in it. -/
theorem parse_lone {source : String} {span : Option Span} {x : Tree}
    (h : parse false source = .ok (.node .expressions span [x]))
    (hnot : ∀ k ∈ x.leaves, k.kind = .identifier → k.text ≠ "not") :
    (∃ ls, Tokens false 0 source.toList ls ∧ Nonterminal.expression.Tells ls x) ∧
      parse true source = .ok (.node .unaryTests span [.node .positiveUnaryTests span [x]]) := by
  obtain ⟨ls, htokens, -⟩ := tells_of_parse h
  have hlex : lex false source = ⟨ls, none⟩ := lex_eq_iff.2 htokens
  have hread := (parse_eq_ok.1 h).2
  rw [hlex] at hread
  have hordered : Cursor.Ordered ⟨0, ls⟩ := htokens.ordered
  obtain ⟨hx, htest⟩ := complete_lone (Grammar.yields_expression _) hordered
    (Grammar.descending_expression _ _) hread
  have hlex' : lex true source = ⟨ls, none⟩ := by
    rw [← hlex]
    refine lex_unary fun l hl hkind => ?_
    rw [hlex] at hl
    exact hnot _ (mem_leaves_of_identifier hx hl hkind) hkind
  -- the grammar of tests reads the same tokens
  refine ⟨⟨ls, htokens, hx⟩, parse_eq_ok.2 ?_⟩
  rw [hlex']
  exact ⟨rfl, htest⟩

/-! ## Its value and its answer -/

section Values

variable {source : String} {span : Option Span} {x : Tree}

/-- The expressions of a source with one of them, and the tests of a source with one of them. -/
theorem build_lone (span : Option Span) {e : Expr} (h : (x.build source).outcome = .ok (some (.expr e))) :
    ((Tree.node .expressions span [x]).build source).outcome = .ok (some (.expr (.list [e]))) ∧
      ((Tree.node .unaryTests span [.node .positiveUnaryTests span [x]]).build source).outcome =
        .ok (some (.tests ⟨false, [.list [e]]⟩)) := by
  have hparts := artifacts_of_build h
  constructor
  · rw [build_node (by decide), hparts]
    rfl
  · rw [build_node (by decide), artifacts_node (by decide), hparts]
    rfl

theorem build_lone_error (span : Option Span) {e : Failure} (h : (x.build source).outcome = .error e) :
    ((Tree.node .expressions span [x]).build source).outcome = .error e ∧
      ((Tree.node .unaryTests span [.node .positiveUnaryTests span [x]]).build source).outcome =
        .error e := by
  have hparts : (Tree.artifacts source [x]).outcome = .error e := by
    rw [artifacts_singleton, h]
    rfl
  constructor
  · rw [build_node (by decide), hparts]
    rfl
  · rw [build_node (by decide), artifacts_node (by decide), hparts]
    rfl

/-- The answer of one test is what its value says. -/
theorem eval_lone (registry : Fields) (e : Expr) (scope : Scope) (v : Value) :
    (⟨false, [.list [e]]⟩ : UnaryTests).eval registry scope v =
      (e.eval registry scope >>= v.verdictOn) := by
  rw [UnaryTests.eval_list]
  simp only [Expr.evalItems, bind_assoc, pure_bind, List.mapM_cons, List.mapM_nil]
  -- one outcome is combined with no other, and null stays null
  refine Run.bind_congr fun r _ => ?_
  conv_rhs => rw [← bind_pure (v.verdictOn r)]
  refine Run.bind_congr fun w _ => ?_
  cases w <;> rfl

end Values

end Criterion

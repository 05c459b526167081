import Criterion.Proofs.Compositional
import Criterion.Proofs.Operands

/-!
# Endpoints behind comparison operators

An endpoint stands behind a comparison operator in a comparison, in a test, and in a test behind a name and the
word `in`. Its tokens are the same in all three, and it is read there as it is read by itself, moved.

* `IsEndpoint`: a source that is an endpoint.
* `Form`, `Form.IsSource`: the three sources, and the place of the endpoint in them.
* `Form.IsSource.tokens`: **their tokens.**
* `Form.IsSource.reads`: **their trees**, with the tree of the endpoint in them.
-/

namespace Criterion

open Lexer Reader Readings

/-! ## Operands that use all tokens -/

namespace Grammar

section Levels

variable {e : Reader Tree} {c : Cursor} {l : Lexeme} {rest : List Lexeme} {t : Tree}

theorem all?_comparisonLevel_of_instance (h : (instanceLevel e).all? c = some t) :
    (comparisonLevel e).all? c = some t := by
  rw [all?_comparisonLevel_eq, h, Option.some_or]

/-- An operator and a sum behind it are a test by comparison. -/
theorem all?_simpleTest (hc : c.rest = l :: rest) (hl : l.kind ∈ relationKinds)
    (h : (sumLevel e).all? ⟨l.stop, rest⟩ = some t) :
    ∃ span, (simpleTest e).all? c = some (.node .simplePositiveUnaryTest span [.token l.token, t]) := by
  have hparts : (token relationKinds >>= fun op => do return [op, ← sumLevel e] : Reader (List Tree)).all? c =
      some [.token l.token, t] := by
    rw [all?_token hc hl (descending_read _ _ _), all?_map, h]
    rfl
  exact ⟨_, (all?_rule _ _).trans (congrArg (Option.map _) hparts)⟩

/-- **A test by comparison that uses all tokens is the only one of a source.** -/
theorem all?_unaryTests (he : e.Yields Nonterminal.expression.Tells) (ho : c.Ordered)
    (h : (simpleTest e).all? c = some t) : ∃ span,
      (unaryTests e).all? c = some (.node .unaryTests span [.node .positiveUnaryTests span [t]]) := by
  have hsimple : Descending (simpleTest e c).found := descending_rule _ _ _
  have htest : (either (simpleTest e) e).all? c = some t := by
    rw [all?_either hsimple, h, Option.some_or]
  obtain ⟨others, hfound⟩ := found_of_all? ((yields_simpleTest he).steady.either he.steady)
    (descending_union hsimple _) ho htest
  have hread := unaryTests_upTo ⟨others, hfound⟩ rfl
  unfold all?
  exact ⟨_, congrArg (Option.map Prod.fst) hread⟩

end Levels

end Grammar

/-! ## Endpoints -/

/-- A source that is an endpoint of the grammar. The word `not` is no name in it, as it is none among tests. -/
def IsEndpoint (source : String) : Prop :=
  ∃ ls, Tokens false 0 source.toList ls ∧ ls ∈ Nonterminal.endpoint.language ∧
    ∀ l ∈ ls, l.kind = .identifier → l.text ≠ "not"

/-- An endpoint with its tokens and its tree. -/
structure Endpoint (source : String) (ls : List Lexeme) (t : Tree) : Prop where
  tokens : Tokens false 0 source.toList ls
  derives : ls ∈ Nonterminal.endpoint.language
  named : ∀ l ∈ ls, l.kind = .identifier → l.text ≠ "not"
  read : (Grammar.sumLevel (Grammar.expression ls.length)).all? ⟨0, ls⟩ = some t

namespace Nonterminal

/-- The rules of operands, and those that they begin with. -/
def isOperand : Nonterminal → Bool
  | .endpoint | .instanceTest | .sum | .product | .power | .unary | .postfixed | .nonNamePostfix | .primary
  | .literal | .qualifiedName | .specialFunctionName | .dateTimeConstructor | .inputValue | .list | .context
  | .interval | .intervalStart | .parenthesizedExpression => true
  | _ => false

theorem productions_isOperand (n : Nonterminal) : n.isOperand = true → ∀ p ∈ n.productions,
    Symbol.startsOutside (Grammar.loopWords ++ relationKinds) isOperand p.body = true := by
  cases n <;> decide

/-- **No operand starts with a comparison operator**, or with a word that begins a loop or a choice. -/
theorem operand_starts {n : Nonterminal} (hn : n.isOperand = true) {w : List Lexeme} (h : w ∈ n.language) :
    ∃ l ∈ w.head?, l.kind ∉ Grammar.loopWords ++ relationKinds := by
  obtain ⟨_, p, hp, _, hd, -⟩ := h
  exact hd.starts_outside productions_isOperand (productions_isOperand n hn p hp)

end Nonterminal

/-- A level of the grammar reads alike in a longer row of tokens if expressions do. -/
structure Grammar.IsLevel (r : Reader Tree → Reader Tree) : Prop where
  descending : ∀ e c, Descending (r e c).found
  alike : ∀ {σ : Surroundings} {n : ℕ} {e e' : Reader Tree}, Local σ n (Tree.moved σ.before) e e' →
    e.Yields Nonterminal.expression.Tells → e'.Yields Nonterminal.expression.Tells →
      Local σ (n + 1) (Tree.moved σ.before) (r e) (r e')

theorem Grammar.isLevel_sumLevel : IsLevel sumLevel := ⟨fun _ _ => descending_read _ _ _, local_sumLevel⟩

/-- A source whose tokens are all read by a level of the grammar, with its tokens and its tree. -/
structure ReadBy (r : Reader Tree → Reader Tree) (source : String) (ls : List Lexeme) (t : Tree) : Prop where
  tokens : Tokens false 0 source.toList ls
  read : (r (Grammar.expression ls.length)).all? ⟨0, ls⟩ = some t

section Operands

variable {source : String} {ls : List Lexeme} {t : Tree} {n : ℕ}

namespace ReadBy

theorem ordered {r : Reader Tree → Reader Tree} (h : ReadBy r source ls t) : Cursor.Ordered ⟨0, ls⟩ := h.tokens.ordered

/-- **The tokens of a source at the end of a longer row** are read as they are by themselves. -/
theorem read_behind {r : Reader Tree → Reader Tree} (h : ReadBy r source ls t) (hr : Grammar.IsLevel r)
    (hn : ls.length ≤ n) (k : ℕ) :
    (r (Grammar.expression n)).all? ⟨k, ls.map (Lexeme.moved k)⟩ = some (t.moved k) := by
  have ho : Cursor.Ordered ⟨0 + k, ls.map (Lexeme.moved k)⟩ := (h.tokens.moved k).ordered
  rw [Nat.zero_add] at ho
  have hlocal : Local ⟨k, []⟩ (ls.length + 1) (Tree.moved k) (r (Grammar.expression ls.length))
      (r (Grammar.expression n)) := hr.alike (Grammar.local_expression hn) (Grammar.yields_expression _)
    (Grammar.yields_expression _)
  exact all?_behind hlocal (hr.descending _) (hr.descending _) ho (Nat.lt_succ_self _) h.read

/-- The tokens of a source are read if they are of the language of a level. -/
theorem exists_of_mem {r : Reader Tree → Reader Tree} {L : Language Lexeme} (hr : Grammar.IsLevel r)
    (hfinds : (r (Grammar.expression ls.length)).Finds (ls.length + 1) L) (htokens : Tokens false 0 source.toList ls)
    (hls : ls ∈ L) : ∃ t, ReadBy r source ls t := by
  obtain ⟨t, ht⟩ := hfinds.exists_all? (c := ⟨0, ls⟩) (hr.descending _ _) htokens.ordered (Nat.lt_succ_self _) hls
  exact ⟨t, htokens, ht⟩

theorem tells (h : ReadBy Grammar.instanceLevel source ls t) : Nonterminal.instanceTest.Tells ls t :=
  (Grammar.yields_instanceLevel (Grammar.yields_expression ls.length)).of_all? h.ordered h.read

theorem starts (h : ReadBy Grammar.instanceLevel source ls t) :
    ∃ l ∈ ls.head?, l.kind ∉ Grammar.loopWords ++ relationKinds := Nonterminal.operand_starts rfl ⟨_, h.tells⟩

/-- **An operand is an expression by itself.** -/
theorem alone (h : ReadBy Grammar.instanceLevel source ls t) : Alone source ls t := by
  obtain ⟨l, hl, hkind⟩ := h.starts
  refine ⟨h.tokens, Grammar.all?_expressionLevel (Grammar.yields_expression ls.length) h.ordered (fun k hk => ?_)
    (Grammar.all?_comparisonLevel_of_instance h.read)⟩
  cases Option.mem_unique hl hk
  exact fun hloop => hkind (List.mem_append_left _ hloop)

end ReadBy

end Operands

section Endpoints

variable {source : String} {ls : List Lexeme} {t : Tree}

theorem IsEndpoint.exists_endpoint (h : IsEndpoint source) : ∃ ls t, Endpoint source ls t := by
  obtain ⟨ls, htokens, hlanguage, hnamed⟩ := h
  obtain ⟨t, ht⟩ := ReadBy.exists_of_mem Grammar.isLevel_sumLevel
    (Grammar.finds_endpoint (Grammar.finds_expression ls.length)) htokens hlanguage
  exact ⟨ls, t, htokens, hlanguage, hnamed, ht.read⟩

/-- A source that is read as a sum is an endpoint. -/
theorem isEndpoint_of_read {n : ℕ} (htokens : Tokens false 0 source.toList ls)
    (hread : (Grammar.sumLevel (Grammar.expression n)).all? ⟨0, ls⟩ = some t)
    (hnamed : ∀ l ∈ ls, l.kind = .identifier → l.text ≠ "not") : IsEndpoint source := by
  refine ⟨ls, htokens, ?_, hnamed⟩
  rw [Grammar.endpoint_language]
  exact ⟨_, (Grammar.yields_sumLevel (Grammar.yields_expression n)).of_all? (c := ⟨0, ls⟩) htokens.ordered hread⟩

namespace Endpoint

theorem readBy (h : Endpoint source ls t) : ReadBy Grammar.sumLevel source ls t := ⟨h.tokens, h.read⟩

/-- An endpoint is an operand, and so an expression by itself. -/
theorem alone (h : Endpoint source ls t) : Alone source ls t :=
  ReadBy.alone ⟨h.tokens, Grammar.all?_instanceLevel_of_sum (Grammar.yields_expression ls.length) h.tokens.ordered h.read⟩

/-- No text of an endpoint starts with an equals sign. -/
theorem head_ne_equal (h : Endpoint source ls t) : ∀ c ∈ source.toList.head?, c ≠ '=' := by
  rintro c hc rfl
  obtain ⟨letters, hletters⟩ := List.head?_eq_some_iff.1 hc
  have htokens := h.tokens
  rw [hletters] at htokens
  have hequal : ∀ x ∈ symbols, x.2.toList.head? = some '=' → x.1 ∈ [Terminal.equal] := by decide
  have hscan : ∀ {v w : List Char} {t : Terminal}, Scans false ('=' :: v) w t → t ∈ [Terminal.equal] := by
    intro v w t hscan
    obtain ⟨x, hx, rfl, htext⟩ := symbol_of_scans (by decide) (by decide) (by decide)
      (fun h => absurd h (by decide)) hscan
    exact hequal x hx (by rw [← htext]; rfl)
  obtain ⟨l, hl, hkind⟩ := htokens.starts_among hscan (by decide)
  obtain ⟨k, hk, hplain⟩ := Nonterminal.operand_starts rfl h.derives
  cases Option.mem_unique hl hk
  refine hplain (List.mem_append_right _ ?_)
  rw [List.mem_singleton.1 hkind]
  decide

/-- The tokens of an endpoint further on, among expressions and among tests. -/
theorem tokens_behind (h : Endpoint source ls t) (unary : Bool) (k : ℕ) :
    Tokens unary k source.toList (ls.map (Lexeme.moved k)) := by
  have htokens : Tokens unary 0 source.toList ls := by
    cases unary with
    | false => exact h.tokens
    | true =>
      have hlex : lex false source = ⟨ls, none⟩ := lex_eq_iff.2 h.tokens
      refine lex_eq_iff.1 ((lex_unary fun l hl => ?_).trans hlex)
      rw [hlex] at hl
      exact h.named l hl
  have hmoved := htokens.moved k
  rwa [Nat.zero_add] at hmoved

end Endpoint

end Endpoints

/-! ## Operators -/

section Operators

variable {unary : Bool} {position : ℕ} {rest : List Char} {ls : List Lexeme}

/-- The signs of less and greater are operators by themselves if no equals sign follows. -/
theorem scan_order {c : Char} {kind : Terminal} (hc : (c, kind) ∈ [('<', Terminal.less), ('>', .greater)])
    (hrest : ∀ d ∈ rest.head?, d ≠ '=') : scan? unary (c :: rest) = some (kind, 1) := by
  simp only [List.mem_cons, List.not_mem_nil, or_false, Prod.mk.injEq] at hc
  cases rest with
  | nil => rcases hc with ⟨rfl, rfl⟩ | ⟨rfl, rfl⟩ <;> rfl
  | cons d rest =>
    have hd : ('=' == d) = false := beq_eq_false_iff_ne.2 (hrest d rfl).symm
    have hpair : [c, '='].isPrefixOf (c :: d :: rest) = false := by
      rw [List.isPrefixOf, List.isPrefixOf, hd, Bool.false_and, Bool.and_false]
    rcases hc with ⟨rfl, rfl⟩ | ⟨rfl, rfl⟩
    · change symbol? ('<' :: d :: rest) = _
      unfold symbol? symbols
      simp only [List.findSome?_cons]
      rw [show "<=".toList = ['<', '='] from rfl, hpair]
      rfl
    · change symbol? ('>' :: d :: rest) = _
      unfold symbol? symbols
      simp only [List.findSome?_cons]
      rw [show ">=".toList = ['>', '='] from rfl, hpair]
      rfl

/-- A comparison operator is one token if no equals sign follows. -/
theorem scan_relation {symbol : String} {op : Relation} (h : Relation.ofText? symbol = some op)
    (hrest : ∀ c ∈ rest.head?, c ≠ '=') :
    ∃ kind ∈ relationKinds, scan? unary (symbol.toList ++ rest) = some (kind, symbol.toList.length) := by
  unfold Relation.ofText? at h
  split at h <;> first | contradiction | skip
  · exact ⟨.equal, by decide, rfl⟩
  · exact ⟨.differs, by decide, rfl⟩
  · exact ⟨.less, by decide, scan_order (by decide) hrest⟩
  · exact ⟨.atMost, by decide, rfl⟩
  · exact ⟨.greater, by decide, scan_order (by decide) hrest⟩
  · exact ⟨.atLeast, by decide, rfl⟩

/-- The token of a comparison operator. -/
theorem tokens_relation {symbol : String} {op : Relation} (h : Relation.ofText? symbol = some op)
    (hrest : ∀ c ∈ rest.head?, c ≠ '=') (htokens : Tokens unary (position + symbol.length) rest ls) :
    ∃ l : Lexeme, Tokens unary position (symbol.toList ++ rest) (l :: ls) ∧ l.kind ∈ relationKinds ∧
      l.token.assemble = .ok (.relation op) ∧ l.stop = position + symbol.length := by
  obtain ⟨kind, hkind, hscan⟩ : ∃ kind ∈ relationKinds,
      scan? unary (symbol.toList ++ rest) = some (kind, symbol.toList.length) := scan_relation h hrest
  have hplain : ∀ k ∈ relationKinds, k.isTrivia = false := by decide
  rw [← String.length_toList] at htokens ⊢
  refine ⟨_, .token (scans_of_scan hscan) (hplain _ hkind) htokens, hkind, ?_, rfl⟩
  rw [String.ofList_toList]
  simp only [relationKinds, List.mem_cons, List.not_mem_nil, or_false] at hkind
  rcases hkind with rfl | rfl | rfl | rfl | rfl | rfl <;> simp only [Token.assemble, Lexeme.token, h]

/-- The word `in` is one token if no word goes on behind it. -/
theorem scans_in (hrest : ∀ c ∈ rest.head?, isWordPart c = false) :
    Scans false ['i', 'n'] rest (.keyword .inWord) := by
  have hphrases : ∀ x ∈ phrases, x.2.1.toList ≠ ['i', 'n'] := by decide
  exact scans_word rfl (List.all_eq_true.1 rfl) hrest fun x hx hword => absurd hword (hphrases x hx)

end Operators

/-! ## Comparisons, tests and memberships -/

/-- The ways to ask whether a value is related to an endpoint: a comparison, a test, and a test behind the word
`in`. -/
inductive Form where
  | comparison
  | test
  | membership

namespace Form

/-- Whether sources of the form are tests. -/
def isUnary : Form → Bool
  | .test => true
  | _ => false

/-- What stands before the operator: a name, nothing, or a name and the word `in`, with blanks. -/
inductive Front (name : String) : Form → List Char → Prop where
  | comparison {before gap : List Char} : Gap before → Gap gap →
    Front name .comparison (before ++ (name.toList ++ gap))
  | test {before : List Char} : Gap before → Front name .test before
  | membership {before gap gap' : List Char} : Gap before → Gap gap → gap ≠ [] → Gap gap' →
    Front name .membership (before ++ (name.toList ++ (gap ++ ('i' :: 'n' :: gap'))))

/-- A source of a form, for a name, an operator and an endpoint, which stands behind `k` characters. -/
def IsSource (form : Form) (name symbol endpoint source : String) (k : ℕ) : Prop :=
  ∃ front, form.Front name front ∧ source.toList = front ++ (symbol.toList ++ endpoint.toList) ∧
    k = front.length + symbol.length

/-- The tokens before the operator. -/
inductive Heads (name : String) : Form → List Lexeme → Prop where
  | comparison {x : Lexeme} : x.kind = .identifier → x.text = name → Heads name .comparison [x]
  | test : Heads name .test []
  | membership {x word : Lexeme} : x.kind = .identifier → x.text = name → word.kind = .keyword .inWord →
    word.text = "in" → Heads name .membership [x, word]

/-- The tree of a form, with the tree of the endpoint in it. -/
inductive IsTree (name : String) (op : Token) (u : Tree) : Form → Tree → Prop where
  | comparison {s₁ s₂ s₃ : Option Span} : IsTree name op u .comparison
    (.node .comparison s₁ [.node .qualifiedName s₂ [.token ⟨.identifier, name, s₃⟩], .token op, u])
  | test {s₁ : Option Span} : IsTree name op u .test (.node .simplePositiveUnaryTest s₁ [.token op, u])
  | membership {s₁ s₂ s₃ s₄ s₅ : Option Span} : IsTree name op u .membership
    (.node .comparison s₁ [.node .qualifiedName s₂ [.token ⟨.identifier, name, s₃⟩],
      .token ⟨.keyword .inWord, "in", s₄⟩, .node .simplePositiveUnaryTest s₅ [.token op, u]])

/-- The tree of a source with one tree in it. -/
def root (form : Form) (span : Option Span) (t : Tree) : Tree :=
  if form.isUnary then .node .unaryTests span [.node .positiveUnaryTests span [t]]
  else .node .expressions span [t]

section Sources

variable {form : Form} {name symbol endpoint source : String} {front rest : List Char} {k position : ℕ}
  {ls heads : List Lexeme} {t u : Tree} {op : Relation} {l : Lexeme}

/-- The tokens before an operator. -/
theorem Front.tokens (h : form.Front name front) (hname : IsName name)
    (hrest : ∀ c ∈ rest.head?, isWordPart c = false ∧ Text.isBlank c = false ∧ c ∉ furtherInitials)
    (htokens : Tokens form.isUnary (position + front.length) rest ls) :
    ∃ heads, form.Heads name heads ∧ Tokens form.isUnary position (front ++ rest) (heads ++ ls) := by
  cases h with
  | test hbefore => exact ⟨[], .test, tokens_gap hbefore htokens⟩
  | @comparison before gap hbefore hgap =>
    have hends : EndsName (gap ++ rest) :=
      endsName_behind_gap hgap (fun _ c hc => (hrest c hc).1) fun c hc => (hrest c hc).2
    simp only [List.length_append, ← Nat.add_assoc] at htokens
    obtain ⟨x, hx, htext, hall⟩ := tokens_scanned (hname.scans_before hends) rfl (tokens_gap hgap htokens)
    rw [String.ofList_toList] at htext
    refine ⟨[x], .comparison hx htext, ?_⟩
    simp only [List.append_assoc]
    exact tokens_gap hbefore hall
  | @membership before gap gap' hbefore hgap hne hgap' =>
    have hends : EndsName (gap ++ ('i' :: 'n' :: (gap' ++ rest))) :=
      endsName_behind_gap hgap (fun hnil => absurd hnil hne) fun c hc => by
        cases hc
        decide
    have happart : ∀ c ∈ (gap' ++ rest).head?, isWordPart c = false :=
      head_gap hgap' (fun c hc => isWordPart_of_blank (isBlank_of_isSpace hc)) fun c hc => (hrest c hc).1
    simp only [List.length_append, List.length_cons] at htokens
    have hbehind : Tokens false (position + before.length + name.toList.length + gap.length + 2)
        (gap' ++ rest) ls := by
      refine tokens_gap hgap' ?_
      rw [show position + before.length + name.toList.length + gap.length + 2 + gap'.length =
        position + (before.length + (name.toList.length + (gap.length + (gap'.length + 1 + 1)))) by omega]
      exact htokens
    obtain ⟨word, hword, hin, hall⟩ := tokens_scanned (scans_in happart) rfl hbehind
    obtain ⟨x, hx, htext, hall⟩ := tokens_scanned (hname.scans_before hends) rfl (tokens_gap hgap hall)
    rw [String.ofList_toList] at htext
    refine ⟨[x, word], .membership hx htext hword hin, ?_⟩
    simp only [List.append_assoc, List.cons_append]
    exact tokens_gap hbefore hall

/-- **The tokens of a source**: those before the operator, the operator, and those of the endpoint. -/
theorem IsSource.tokens (h : form.IsSource name symbol endpoint source k) (hname : IsName name)
    (hsymbol : Relation.ofText? symbol = some op) (ht : Endpoint endpoint ls t) :
    ∃ heads l, form.Heads name heads ∧
      Tokens form.isUnary 0 source.toList (heads ++ l :: ls.map (Lexeme.moved k)) ∧ l.kind ∈ relationKinds ∧
      l.token.assemble = .ok (.relation op) ∧ l.stop = k := by
  obtain ⟨front, hfront, hsource, rfl⟩ := h
  obtain ⟨l, hl, hkind, hop, hstop⟩ :=
    tokens_relation hsymbol ht.head_ne_equal (ht.tokens_behind form.isUnary (front.length + symbol.length))
  have hhead : ∀ c ∈ (symbol.toList ++ endpoint.toList).head?,
      isWordPart c = false ∧ Text.isBlank c = false ∧ c ∉ furtherInitials := by
    unfold Relation.ofText? at hsymbol
    split at hsymbol <;> first | contradiction | (rintro c ⟨⟩; decide)
  rw [← Nat.zero_add front.length] at hl
  obtain ⟨heads, hheads, htokens⟩ := hfront.tokens hname hhead hl
  rw [Nat.zero_add] at htokens
  refine ⟨heads, l, hheads, ?_, hkind, hop, hstop⟩
  rw [hsource]
  exact htokens

/-- Where a name begins a row of tokens and a comparison is read of them, the row is an expression. -/
theorem isExpression_of_comparison {x m : Lexeme} {rest : List Lexeme} {ts : List Tree}
    (htokens : Tokens false 0 source.toList (x :: m :: rest)) (hx : x.kind = .identifier) (htext : x.text = name)
    (hm : m.kind ∉ Grammar.operandTails)
    (h : (Grammar.comparisonRest (Grammar.expression (rest.length + 2))).all? ⟨x.stop, m :: rest⟩ = some ts) :
    ∃ s₁ s₂ s₃, IsExpression source
      (.node .comparison s₁ (.node .qualifiedName s₂ [.token ⟨.identifier, name, s₃⟩] :: ts)) := by
  have he := Grammar.yields_expression (rest.length + 2)
  have ho : Cursor.Ordered ⟨0, x :: m :: rest⟩ := htokens.ordered
  have hfirst : Cursor.HeadIn ⟨0, x :: m :: rest⟩ [.identifier] :=
    Cursor.headIn_of_rest rfl (List.mem_singleton.2 hx)
  obtain ⟨s₁, s₂, hcomparison⟩ := Grammar.all?_comparisonLevel he ho rfl hx hm h
  have hexpression := Grammar.all?_expressionLevel he ho (Grammar.avoids hfirst (by decide)) hcomparison
  have hname : x.token = ⟨.identifier, name, some ⟨x.start, x.stop⟩⟩ := by
    rw [Lexeme.token, hx, htext]
  rw [hname] at hexpression
  exact ⟨s₁, s₂, _, Alone.isExpression ⟨htokens, hexpression⟩⟩

section Trees

variable {x word : Lexeme} {rest : List Lexeme}
  (hread : ∀ n, rest.length ≤ n → (Grammar.sumLevel (Grammar.expression n)).all? ⟨l.stop, rest⟩ = some u)
  (hl : l.kind ∈ relationKinds)

include hread hl in
/-- A name, an operator and an endpoint are a comparison. -/
theorem parse_comparison (h : Tokens false 0 source.toList (x :: l :: rest)) (hx : x.kind = .identifier)
    (htext : x.text = name) :
    ∃ span v, parse false source = .ok (root .comparison span v) ∧ IsTree name l.token u .comparison v := by
  have hstart : Cursor.Ordered ⟨0, x :: l :: rest⟩ := h.ordered
  have hbehind : Cursor.Ordered ⟨l.stop, rest⟩ := hstart.passes (w := [x, l]) ⟨rfl, rfl⟩
  have hoperand := Grammar.all?_instanceLevel_of_sum (Grammar.yields_expression (rest.length + 2)) hbehind
    (hread _ (Nat.le_add_right _ _))
  have hkinds : ∀ k ∈ relationKinds, k ∉ Grammar.operandTails := by decide
  obtain ⟨s₁, s₂, s₃, span, hparse⟩ := isExpression_of_comparison h hx htext (hkinds _ hl) (by
    rw [Grammar.all?_comparisonRest_relation rfl hl, hoperand]
    rfl)
  exact ⟨span, _, hparse, .comparison⟩

include hread hl in
/-- An operator and an endpoint are a test. -/
theorem parse_test (h : Tokens true 0 source.toList (l :: rest)) :
    ∃ span v, parse true source = .ok (root .test span v) ∧ IsTree name l.token u .test v := by
  have ho : Cursor.Ordered ⟨0, l :: rest⟩ := h.ordered
  have he := Grammar.yields_expression ((l :: rest).length + 1)
  have hsum := hread ((l :: rest).length + 1) (Nat.le_add_right rest.length 2)
  obtain ⟨s₁, htest⟩ := Grammar.all?_simpleTest (c := ⟨0, l :: rest⟩) rfl hl hsum
  obtain ⟨span, hall⟩ := Grammar.all?_unaryTests he ho htest
  have hcomplete : (readings true (l :: rest)).complete? = some _ :=
    (all?_eq_complete (Grammar.yields_unaryTests he) ho).trans hall
  refine ⟨span, .node .simplePositiveUnaryTest s₁ [.token l.token, u], ?_, .test⟩
  rw [parse_eq_ok, lex_eq_iff.2 h]
  exact ⟨rfl, hcomplete⟩

include hread hl in
/-- A name, the word `in`, an operator and an endpoint are a comparison with a test in it. -/
theorem parse_membership (h : Tokens false 0 source.toList (x :: word :: l :: rest)) (hx : x.kind = .identifier)
    (htext : x.text = name) (hword : word.kind = .keyword .inWord) (hin : word.text = "in") :
    ∃ span v, parse false source = .ok (root .membership span v) ∧ IsTree name l.token u .membership v := by
  have hsum := hread ((l :: rest).length + 2) (Nat.le_add_right rest.length 3)
  obtain ⟨s₅, htest⟩ := Grammar.all?_simpleTest (c := ⟨word.stop, l :: rest⟩) rfl hl hsum
  have hapart : word.kind ∉ Grammar.operandTails := by
    rw [hword]
    decide
  obtain ⟨s₁, s₂, s₃, span, hparse⟩ := isExpression_of_comparison h hx htext hapart (by
    rw [Grammar.all?_comparisonRest_in rfl hword, htest, Option.some_or, Option.map_some, Option.some_or])
  have htoken : word.token = ⟨.keyword .inWord, "in", some ⟨word.start, word.stop⟩⟩ := by
    rw [Lexeme.token, hword, hin]
  rw [htoken] at hparse
  exact ⟨span, _, hparse, .membership⟩

end Trees

/-- **The tree of a source**: the endpoint is read behind the operator as it is read by itself. -/
theorem IsSource.reads (h : form.IsSource name symbol endpoint source k) (hname : IsName name)
    (hsymbol : Relation.ofText? symbol = some op) (ht : Endpoint endpoint ls t) :
    ∃ span o v, parse form.isUnary source = .ok (form.root span v) ∧ o.kind ∈ relationKinds ∧
      o.assemble = .ok (.relation op) ∧ form.IsTree name o (t.moved k) v := by
  obtain ⟨heads, l, hheads, htokens, hl, hop, rfl⟩ := h.tokens hname hsymbol ht
  have hread : ∀ n, (ls.map (Lexeme.moved l.stop)).length ≤ n →
      (Grammar.sumLevel (Grammar.expression n)).all? ⟨l.stop, ls.map (Lexeme.moved l.stop)⟩ =
        some (t.moved l.stop) := by
    intro n hn
    rw [List.length_map] at hn
    exact ht.readBy.read_behind Grammar.isLevel_sumLevel hn _
  cases hheads with
  | comparison hx htext =>
    obtain ⟨span, v, hparse, hv⟩ := parse_comparison hread hl htokens hx htext
    exact ⟨span, _, v, hparse, hl, hop, hv⟩
  | test =>
    obtain ⟨span, v, hparse, hv⟩ := parse_test hread hl htokens
    exact ⟨span, _, v, hparse, hl, hop, hv⟩
  | membership hx htext hword hin =>
    obtain ⟨span, v, hparse, hv⟩ := parse_membership hread hl htokens hx htext hword hin
    exact ⟨span, _, v, hparse, hl, hop, hv⟩

end Sources

end Form

end Criterion

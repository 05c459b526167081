import Criterion.Proofs.Completeness
import Criterion.Proofs.Lexing

/-!
# The parser accepts its grammar

A source has a tree exactly if its tokens derive from the start rule, and then the tree is one that a
derivation of these very tokens leaves.

* `Tree.leaves`: the tokens of a tree, from left to right.
* `Derives.leaves_sublist`, `Derives.leaves_named`: a derivation keeps the order of its tokens and loses
  none that the grammar names.
* `readings_complete_iff`: the readings of all tokens.
* `parse_accepts`: the parser accepts exactly its grammar.
-/

namespace Criterion

open Computability

/-! ## The tokens of a tree -/

mutual

/-- The tokens of a tree, from left to right. -/
def Tree.leaves : Tree → List Token
  | .token k => [k]
  | .node _ _ children => Tree.leavesOf children

def Tree.leavesOf : List Tree → List Token
  | [] => []
  | t :: rest => Tree.leaves t ++ Tree.leavesOf rest

end

@[simp] theorem leaves_token (k : Token) : Tree.leaves (.token k) = [k] := by rw [Tree.leaves]

@[simp] theorem leaves_node (rule : Rule) (span : Option Span) (children : List Tree) :
    Tree.leaves (.node rule span children) = Tree.leavesOf children := by rw [Tree.leaves]

@[simp] theorem leavesOf_nil : Tree.leavesOf [] = [] := by rw [Tree.leavesOf]

@[simp] theorem leavesOf_cons (t : Tree) (rest : List Tree) :
    Tree.leavesOf (t :: rest) = t.leaves ++ Tree.leavesOf rest := by rw [Tree.leavesOf]

theorem leavesOf_append (ts us : List Tree) :
    Tree.leavesOf (ts ++ us) = Tree.leavesOf ts ++ Tree.leavesOf us := by
  induction ts with
  | nil => simp
  | cons t ts ih => simp [ih]

/-- A rule adds no token and takes none away. -/
theorem leavesOf_shape (n : Nonterminal) (p : Production) (w : List Lexeme) (ts : List Tree) :
    Tree.leavesOf (n.shape p w ts) = Tree.leavesOf ts := by
  unfold Nonterminal.shape
  split
  · simp
  · simp
  · rfl
  · split
    · rfl
    · simp

/-- The terminals that the grammar names; it writes the others as text. -/
def Terminal.isNamed : Terminal → Bool
  | .identifier | .number | .string | .specialName | .dateAndTime => true
  | .keyword k => k ∈ [.everyWord, .someWord, .trueWord, .falseWord, .nullWord]
  | .plus | .minus | .star | .slash | .power => true
  | .equal | .differs | .atMost | .atLeast | .less | .greater => true
  | _ => false

mutual

/-- The texts of a symbol are no named terminals. -/
def Symbol.textsUnnamed : Symbol → Bool
  | .named _ | .rule _ => true
  | .text kinds => kinds.all fun t => !t.isNamed
  | .many body | .optional body => Symbol.allUnnamed body

def Symbol.allUnnamed : List Symbol → Bool
  | [] => true
  | s :: rest => s.textsUnnamed && Symbol.allUnnamed rest

end

theorem Symbol.allUnnamed_append (a b : List Symbol) :
    Symbol.allUnnamed (a ++ b) = (Symbol.allUnnamed a && Symbol.allUnnamed b) := by
  induction a with
  | nil => rfl
  | cons s a ih => simp [Symbol.allUnnamed, ih, Bool.and_assoc]

theorem productions_unnamed (n : Nonterminal) :
    ∀ p ∈ n.productions, Symbol.allUnnamed p.body = true := by
  cases n <;> decide

section Leaves

variable {keeps : Bool} {body : List Symbol} {w : List Lexeme} {ts : List Tree}

/-- A derivation keeps tokens in their order. -/
theorem Derives.leaves_sublist (h : Derives keeps body w ts) :
    (Tree.leavesOf ts).Sublist (w.map (·.token)) := by
  induction h with
  | nil => simp
  | named _ _ ih | kept _ _ ih => simpa using ih
  | dropped _ _ ih => exact ih.cons _
  | rule _ _ _ ihBody ih =>
    rw [leavesOf_append, leavesOf_shape, List.map_append]
    exact ihBody.append ih
  | absent _ ih | present _ ih | done _ ih | again _ ih => exact ih

/-- A derivation loses no token that the grammar names. -/
theorem Derives.leaves_named (h : Derives keeps body w ts) (hbody : Symbol.allUnnamed body = true) :
    (Tree.leavesOf ts).filter (·.kind.isNamed) =
      (w.map (·.token)).filter (·.kind.isNamed) := by
  -- what is dropped has a kind that the grammar never names, so both sides leave it out
  have hdropped : ∀ {kinds : List Terminal} {l : Lexeme},
      (kinds.all fun t => !t.isNamed) = true → l.kind ∈ kinds → l.token.kind.isNamed = false := by
    intro kinds l hall hl
    have hkind := List.all_eq_true.1 hall _ hl
    simpa [Lexeme.token] using hkind
  induction h with
  | nil => rfl
  | named _ _ ih =>
    simp only [Symbol.allUnnamed, Bool.and_eq_true] at hbody
    simp only [leavesOf_cons, leaves_token, List.map_cons, List.singleton_append, List.filter_cons,
      ih hbody.2]
  | kept _ _ ih =>
    simp only [Symbol.allUnnamed, Bool.and_eq_true] at hbody
    simp only [leavesOf_cons, leaves_token, List.map_cons, List.singleton_append, List.filter_cons,
      ih hbody.2]
  | dropped hl _ ih =>
    simp only [Symbol.allUnnamed, Symbol.textsUnnamed, Bool.and_eq_true] at hbody
    rw [List.map_cons, List.filter_cons, hdropped hbody.1 hl]
    exact ih hbody.2
  | rule hp _ _ ihBody ih =>
    simp only [Symbol.allUnnamed, Bool.and_eq_true] at hbody
    rw [leavesOf_append, leavesOf_shape, List.map_append, List.filter_append, List.filter_append,
      ihBody (productions_unnamed _ _ hp), ih hbody.2]
  | absent _ ih | done _ ih =>
    simp only [Symbol.allUnnamed, Bool.and_eq_true] at hbody
    exact ih hbody.2
  | present _ ih =>
    simp only [Symbol.allUnnamed, Symbol.textsUnnamed, Bool.and_eq_true] at hbody
    exact ih (by rw [Symbol.allUnnamed_append, hbody.1, hbody.2]; rfl)
  | again _ ih =>
    have hbody' := hbody
    simp only [Symbol.allUnnamed, Symbol.textsUnnamed, Bool.and_eq_true] at hbody
    exact ih (by rw [Symbol.allUnnamed_append, hbody.1, hbody']; rfl)

theorem Nonterminal.Tells.leaves_sublist {n : Nonterminal} {t : Tree} (h : n.Tells w t) :
    t.leaves.Sublist (w.map (·.token)) := by
  have hd : Derives false [.rule n] w [t] := h.derives_last
  simpa using hd.leaves_sublist

theorem Nonterminal.Tells.leaves_named {n : Nonterminal} {t : Tree} (h : n.Tells w t) :
    t.leaves.filter (·.kind.isNamed) = (w.map (·.token)).filter (·.kind.isNamed) := by
  have hd : Derives false [.rule n] w [t] := h.derives_last
  simpa using hd.leaves_named rfl

end Leaves

/-! ## Whole sources -/

/-- The start rule: unary tests or expressions. -/
def startRule (unary : Bool) : Nonterminal := if unary then .unaryTests else .expressions

variable {unary : Bool} {ls : List Lexeme} {source : String}

/-- A source is read from its start rule. -/
theorem yields_source (unary : Bool) (fuel : ℕ) : (if unary then Grammar.unaryTests (Grammar.expression fuel)
    else Grammar.expressions (Grammar.expression fuel)).Yields (startRule unary).Tells := by
  have he := Grammar.yields_expression fuel
  cases unary with
  | true => exact Grammar.yields_unaryTests he
  | false => exact Grammar.yields_expressions he

theorem finds_source (unary : Bool) (fuel : ℕ) : (if unary then Grammar.unaryTests (Grammar.expression fuel)
    else Grammar.expressions (Grammar.expression fuel)).Finds fuel (startRule unary).language := by
  have he := Grammar.finds_expression fuel
  cases unary with
  | true => exact Grammar.finds_unaryTests he
  | false => exact Grammar.finds_expressions he

/-- Some reading uses all tokens exactly if they derive from the start rule, and its tree is that of a
derivation. -/
theorem readings_complete (unary : Bool) (hordered : (0 :: ls.map (·.stop)).Pairwise (· < ·)) :
    match (readings unary ls).complete? with
    | some t => (startRule unary).Tells ls t
    | none => ls ∉ (startRule unary).language := by
  have hyields := yields_source unary (ls.length + 1)
  have hfinds := finds_source unary (ls.length + 1)
  have hcomplete : (readings unary ls).complete? =
      ((readings unary ls).found.find? fun x => x.2.rest.isEmpty).map (·.1) := rfl
  rw [hcomplete]
  cases hfind : (readings unary ls).found.find? fun x => x.2.rest.isEmpty with
  | some x =>
    obtain ⟨t, c⟩ := x
    obtain ⟨w, hw, ht⟩ := (hyields ⟨0, ls⟩).spans _ (List.mem_of_find?_eq_some hfind)
    have hrest : c.rest = [] := by simpa using List.find?_some hfind
    have hls : ls = w := by simpa [hrest] using hw.rest
    rw [hls]
    exact ht
  | none =>
    intro hls
    -- a reading of all tokens would be among the ones that are found
    have hpasses : Cursor.Passes ⟨0, ls⟩ ls ⟨Cursor.stopAfter 0 ls, []⟩ :=
      ⟨(List.append_nil ls).symm, rfl⟩
    obtain ⟨t, ht⟩ := hfinds.found ⟨0, ls⟩ ls _ hordered hpasses (Nat.lt_succ_self _) hls
    have hno := List.find?_eq_none.1 hfind _ ht
    exact hno rfl

/-- A source has the tree that reads all its tokens. -/
theorem parse_eq_ok {t : Tree} : parse unary source = .ok t ↔
    (lex unary source).stop = none ∧ (readings unary (lex unary source).lexemes).complete? = some t := by
  unfold parse
  dsimp only
  constructor
  · intro h
    split at h
    · rename_i hstop ht
      cases h
      exact ⟨hstop, ht⟩
    · cases h
  · rintro ⟨hstop, ht⟩
    rw [hstop, ht]

theorem parse_eq_error {e : Failure} (h : parse unary source = .error e) :
    ∃ start, e = .unparseable start (min (start + 1) source.length) (some source) := by
  unfold parse at h
  dsimp only at h
  split at h
  · cases h
  · cases h
    exact ⟨_, rfl⟩

/-- The tree of a source is left by a derivation of its tokens. -/
theorem tells_of_parse {t : Tree} (h : parse unary source = .ok t) :
    ∃ ls, Tokens unary 0 source.toList ls ∧ (startRule unary).Tells ls t := by
  obtain ⟨hstop, ht⟩ := parse_eq_ok.1 h
  have htokens : Tokens unary 0 source.toList (lex unary source).lexemes := by
    refine lex_eq_iff.1 ?_
    rw [← hstop]
  have hcomplete := readings_complete unary htokens.ordered
  rw [ht] at hcomplete
  exact ⟨_, htokens, hcomplete⟩

/-- A source whose tokens derive from the start rule has a tree. -/
theorem parse_of_language (htokens : Tokens unary 0 source.toList ls) (hls : ls ∈ (startRule unary).language) :
    ∃ t, parse unary source = .ok t := by
  have hcomplete := readings_complete unary htokens.ordered
  cases hread : (readings unary ls).complete? with
  | none =>
    rw [hread] at hcomplete
    exact absurd hls hcomplete
  | some t =>
    refine ⟨t, ?_⟩
    rw [parse_eq_ok, lex_eq_iff.2 htokens]
    exact ⟨rfl, hread⟩

/-- **The parser accepts exactly its grammar.** A source has a tree if and only if it has tokens that
derive from the start rule. The tree is left by a derivation of these very tokens: its tokens are
tokens of the source in their order, among them all that the grammar names. A source without a tree
fails as one that cannot be parsed. -/
theorem parse_accepts (unary : Bool) (source : String) :
    ((∃ t, parse unary source = .ok t) ↔
      ∃ ls, Tokens unary 0 source.toList ls ∧ ls ∈ (startRule unary).language) ∧
    match parse unary source with
    | .ok t => ∃ ls, Tokens unary 0 source.toList ls ∧ (startRule unary).Tells ls t ∧
        t.leaves.Sublist (ls.map (·.token)) ∧
        t.leaves.filter (·.kind.isNamed) = (ls.map (·.token)).filter (·.kind.isNamed)
    | .error e => ∃ start, e = .unparseable start (min (start + 1) source.length) (some source) := by
  cases hparse : parse unary source with
  | ok t =>
    obtain ⟨ls, htokens, ht⟩ := tells_of_parse hparse
    refine ⟨⟨fun _ => ⟨ls, htokens, _, ht⟩, fun _ => ⟨t, rfl⟩⟩, ls, htokens, ht, ht.leaves_sublist,
      ht.leaves_named⟩
  | error e =>
    refine ⟨⟨fun ⟨t, ht⟩ => (nomatch ht), ?_⟩, parse_eq_error hparse⟩
    rintro ⟨ls, htokens, hls⟩
    obtain ⟨t, hok⟩ := parse_of_language htokens hls
    rw [hok] at hparse
    cases hparse

end Criterion

import Criterion.Proofs.Soundness

/-!
# What is derived is read

Each reader of the grammar finds every word of its rule's language. The readers of inner expressions
are assumed to find the words with fewer than `k` tokens; since what stands before an inner
expression takes a token at least, the reader of expressions then finds one token more.

* `le_mul_kstar`: a rule that begins with itself is a loop.
* `finds_expression`: a reader that goes `k` deep finds the expressions with fewer than `k` tokens.
* `finds_expressions`, `finds_unaryTests`: the readers of whole sources.
-/

namespace Criterion

open Computability Reader

/-! ## Words of rules -/

section Words

variable {L M B S : Language Lexeme}

/-- **A left recursion is a loop.** What begins with itself or with a base case is a base case with
any number of steps behind it. -/
theorem le_mul_kstar (hS : [] ∉ S) (h : L ≤ B + L * S) : L ≤ B * S∗ := by
  have hshort : ∀ k, ∀ w ∈ L, w.length < k → w ∈ B * S∗ := by
    intro k
    induction k with
    | zero => intro w _ hk; omega
    | succ k ih =>
      intro w hw hk
      rcases h hw with hB | hLS
      · have hnil := Language.append_mem_mul hB (Language.nil_mem_kstar S)
        rwa [List.append_nil] at hnil
      · obtain ⟨u, hu, v, hv, rfl⟩ := Language.mem_mul.1 hLS
        have hpos : 0 < v.length := List.length_pos_iff.2 fun h => hS (h ▸ hv)
        rw [List.length_append] at hk
        have hstar : B * S∗ * S ≤ B * S∗ := by
          rw [mul_assoc]
          exact mul_le_mul_right kstar_mul_le_kstar B
        exact hstar (Language.append_mem_mul (ih u hu (by omega)) hv)
  exact fun w hw => hshort (w.length + 1) w hw (Nat.lt_succ_self _)

/-- Every word begins with a token of one of some kinds. -/
def Begins (kinds : List Terminal) (L : Language Lexeme) : Prop :=
  ∀ w ∈ L, ∃ l ∈ w.head?, l.kind ∈ kinds

variable {kinds kinds' : List Terminal}

theorem Begins.nil_notMem (h : Begins kinds L) : [] ∉ L := by
  intro hL
  obtain ⟨l, hl, -⟩ := h [] hL
  cases hl

theorem begins_tokenOf_mul (h : kinds ⊆ kinds') (L : Language Lexeme) :
    Begins kinds' (tokenOf kinds * L) := by
  rintro w ⟨_, ⟨l, rfl, hl⟩, v, -, rfl⟩
  exact ⟨l, rfl, h hl⟩

theorem Begins.add (h : Begins kinds L) (h' : Begins kinds M) : Begins kinds (L + M) :=
  fun w hw => hw.elim (h w) (h' w)

theorem tokenOf_cons (t : Terminal) (ts : List Terminal) :
    tokenOf (t :: ts) = tokenOf [t] + tokenOf ts := by
  ext w
  simp only [Language.mem_add]
  constructor
  · rintro ⟨l, rfl, hl⟩
    rcases List.mem_cons.1 hl with hl | hl
    · exact .inl ⟨l, rfl, hl ▸ List.mem_singleton_self _⟩
    · exact .inr ⟨l, rfl, hl⟩
  · rintro (⟨l, rfl, hl⟩ | ⟨l, rfl, hl⟩)
    · exact ⟨l, rfl, List.mem_cons.2 (.inl (List.mem_singleton.1 hl))⟩
    · exact ⟨l, rfl, List.mem_cons_of_mem _ hl⟩

theorem Nonterminal.nil_notMem (n : Nonterminal) : [] ∉ n.language :=
  fun ⟨_, h⟩ => h.ne_nil rfl

theorem language_single {n : Nonterminal} {p : Production} (h : n.productions = [p]) :
    n.language = Symbol.languages p.body := by
  rw [language_eq, h]
  simp

/-- A rule that is one token. -/
theorem language_token {n : Nonterminal} {s : Symbol} (h : n.productions = [Nonterminal.plain [s]])
    (hs : s.language = tokenOf kinds) : n.language = tokenOf kinds := by
  rw [language_single h, ← hs]
  exact mul_one _

/-- A rule that is one of two others. -/
theorem language_either {n m m' : Nonterminal}
    (h : n.productions = [Nonterminal.plain [.rule m], Nonterminal.plain [.rule m']]) :
    n.language = m.language + m'.language := by
  rw [language_eq, h]
  simp only [Nonterminal.plain, List.map_cons, List.map_nil, List.sum_cons, List.sum_nil,
    Symbol.languages_cons, Symbol.languages_nil, Symbol.language, mul_one, add_zero]

end Words

/-! ## Readers of symbols -/

section Symbols

open Nonterminal (word wordOf commas)

variable {α β : Type} {r : Reader α} {f : α → Reader β} {k : ℕ} {n m : Nonterminal}
  {rest body : List Symbol} {L : Language Lexeme}

theorem finds_named {kinds : List Terminal} {f : Tree → Reader β}
    (hf : ∀ t, (f t).Finds k (Symbol.languages rest)) :
    (token kinds >>= f).Finds (k + 1) (Symbol.languages (.named kinds :: rest)) :=
  finds_token_bind hf

theorem finds_text {kinds : List Terminal} {f : Tree → Reader β}
    (hf : ∀ t, (f t).Finds k (Symbol.languages rest)) :
    (token kinds >>= f).Finds (k + 1) (Symbol.languages (.text kinds :: rest)) :=
  finds_token_bind hf

theorem finds_word {t : Terminal} {f : Unit → Reader β}
    (hf : (f ()).Finds k (Symbol.languages rest)) :
    (skip t >>= f).Finds (k + 1) (Symbol.languages (word t :: rest)) :=
  finds_skip_bind hf

theorem finds_rule (h : r.Finds k n.language) (hf : ∀ a, (f a).Finds k (Symbol.languages rest)) :
    (r >>= f).Finds k (Symbol.languages (.rule n :: rest)) := h.bind hf

theorem finds_nil (a : α) : (pure a : Reader α).Finds k (Symbol.languages []) := finds_pure a

/-- The reader of a rule that has one production. -/
theorem finds_rule_node {rule : Rule} {parts : Reader (List Tree)} {p : Production}
    (hp : n.productions = [p]) (h : parts.Finds k (Symbol.languages p.body)) :
    (Grammar.rule rule parts).Finds k n.language := by
  rw [language_single hp]
  have hparts := h.bind fun ts => finds_pure (rule, ts)
  rw [mul_one] at hparts
  exact hparts.node

/-- A rule that is one token. -/
theorem finds_token_rule {kinds : List Terminal} {f : Tree → Reader β}
    (h : n.language = tokenOf kinds) (hf : ∀ t, (f t).Finds k (Symbol.languages rest)) :
    (token kinds >>= f).Finds (k + 1) (Symbol.languages (.rule n :: rest)) := by
  have hrule : (Symbol.rule n).language = tokenOf kinds := h
  rw [Symbol.languages_cons, hrule]
  exact finds_token_bind hf

theorem finds_optional (h : r.Finds k (Symbol.languages body)) (a : α) :
    (r.either (pure a)).Finds k (Symbol.optional body).language := by
  have hsum : (Symbol.optional body).language = Symbol.languages body + 1 := add_comm _ _
  rw [hsum]
  exact h.either (finds_pure a)

theorem finds_many {step : α → Reader α} (h : ∀ a, (step a).Finds k (Symbol.languages body))
    (hbody : [] ∉ Symbol.languages body) (a : α) :
    (chain step a).Finds k (Symbol.languages [.many body]) := by
  have hmany : Symbol.languages [.many body] = (Symbol.languages body)∗ := mul_one _
  rw [hmany]
  exact finds_chain h hbody a

theorem finds_commas (h : r.Finds k n.language) :
    (separated r).Finds k (Symbol.languages (commas n)) := by
  simpa [commas, word, Symbol.language] using h.separated

end Symbols

namespace Grammar

open Nonterminal (word wordOf commas)

variable {e : Reader Tree} {k : ℕ}

/-! ## Primary expressions -/

theorem finds_literal : literal.Finds k Nonterminal.literal.language := by
  have h : Nonterminal.literal.language = tokenOf [.number, .string, .keyword .trueWord,
      .keyword .falseWord, .keyword .nullWord] := language_token rfl rfl
  rw [h]
  exact finds_token _

section Intervals

variable (he : e.Finds k Nonterminal.expression.language)
include he

/-- An interval behind its opening bracket and its first bound. -/
theorem finds_intervalRest (opening start : Tree) : (intervalRest e opening start).Finds k
    (Symbol.languages [word .dots, .rule .expression, .rule .intervalEnd]) := by
  have hend : Nonterminal.intervalEnd.language =
      tokenOf [.rightParen, .leftBracket, .rightBracket] := language_token rfl rfl
  exact .weaken (finds_word (finds_rule he fun stop => .weaken (finds_token_rule hend fun closing =>
    finds_nil _)))

end Intervals

/-- An interval that opens with a certain bracket. -/
def intervalFrom (opening : Terminal) : Language Lexeme :=
  Symbol.languages
    [word opening, .rule .expression, word .dots, .rule .expression, .rule .intervalEnd]

theorem interval_language : Nonterminal.interval.language =
    intervalFrom .leftParen + (intervalFrom .rightBracket + intervalFrom .leftBracket) := by
  have hstart : Nonterminal.intervalStart.language =
      tokenOf [.leftParen] + (tokenOf [.rightBracket] + tokenOf [.leftBracket]) := by
    rw [← tokenOf_cons, ← tokenOf_cons]
    exact language_token rfl rfl
  rw [language_single rfl]
  simp only [Nonterminal.plain, Symbol.languages_cons, Symbol.language, hstart, add_mul,
    intervalFrom, word]

section Primary

variable (he : e.Finds k Nonterminal.expression.language)
include he

theorem finds_bracketed :
    (bracketed e).Finds (k + 1) (Nonterminal.list.language + intervalFrom .leftBracket) := by
  have hitems : ∀ first : Tree, (chain (fun items => do
        skip .comma
        let next ← e
        return items ++ [next]) [first] >>= fun items => do
      skip .rightBracket
      return (Rule.list, items) : Reader (Rule × List Tree)).Finds k
        (Symbol.languages [.many [word .comma, .rule .expression], word .rightBracket]) := by
    intro first
    have hstep : ∀ items : List Tree, (do
        skip .comma
        let next ← e
        return items ++ [next] : Reader (List Tree)).Finds k
          (Symbol.languages [word .comma, .rule .expression]) :=
      fun items => (finds_word (finds_rule he fun _ => finds_nil _)).weaken
    have hne := (begins_tokenOf_mul (List.Subset.refl [Terminal.comma])
      (Symbol.languages [.rule .expression])).nil_notMem
    exact (finds_chain hstep hne _).bind fun items => .weaken (finds_word (finds_nil _))
  have hempty : (do skip .rightBracket; return (Rule.list, []) : Reader (Rule × List Tree)).Finds k
      (Symbol.languages [word .rightBracket]) := .weaken (finds_word (finds_nil _))
  refine Finds.mono (.node (finds_token_bind fun opening => hempty.either (he.bind fun first =>
    (hitems first).either (finds_intervalRest he opening first)))) le_rfl (le_of_eq ?_)
  rw [language_single rfl]
  simp only [Nonterminal.plain, Symbol.languages_cons, Symbol.languages_nil, Symbol.language, mul_one,
    intervalFrom, word, commas, mul_add, add_mul, one_mul, mul_assoc, add_assoc]

theorem finds_parenthesized : (parenthesized e).Finds (k + 1)
    (intervalFrom .leftParen + Nonterminal.parenthesizedExpression.language) := by
  have hclosed : ∀ first : Tree, (do
      skip .rightParen
      return (Rule.parenthesizedExpression, [first]) : Reader (Rule × List Tree)).Finds k
        (Symbol.languages [word .rightParen]) := fun _ => .weaken (finds_word (finds_nil _))
  refine Finds.mono (.node (finds_token_bind fun opening => he.bind fun first =>
    (finds_intervalRest he opening first).either (hclosed first))) le_rfl (le_of_eq ?_)
  rw [language_single rfl]
  simp only [Nonterminal.plain, Symbol.languages_cons, Symbol.languages_nil, Symbol.language, mul_one,
    intervalFrom, word, mul_add]

theorem finds_reversed : (reversed e).Finds (k + 1) (intervalFrom .rightBracket) :=
  (finds_text fun opening => finds_rule he fun first => finds_intervalRest he opening first).node

theorem finds_context : (context e).Finds (k + 1) Nonterminal.context.language := by
  have hkey : Nonterminal.key.language = tokenOf [.identifier, .string] := language_token rfl rfl
  have hentry : (entry e).Finds k Nonterminal.contextEntry.language :=
    finds_rule_node rfl (.weaken (finds_token_rule hkey fun key => .weaken (finds_word
      (finds_rule he fun _ => finds_nil _))))
  exact finds_rule_node rfl (finds_word ((finds_optional (finds_commas hentry) _).bind fun entries =>
    .weaken (finds_word (finds_nil _))))

theorem finds_parameters : (parameters e).Finds (k + 1) Nonterminal.parameters.language := by
  have hpositional : (rule .positionalParameters (separated e)).Finds k
      Nonterminal.positionalParameters.language := finds_rule_node rfl (finds_commas he)
  have harguments : (do return [← rule .positionalParameters (separated e)] :
      Reader (List Tree)).Finds k (Symbol.languages [.rule .positionalParameters]) :=
    finds_rule hpositional fun _ => finds_nil _
  exact finds_rule_node rfl (finds_word ((finds_optional harguments _).bind fun _ =>
    .weaken (finds_word (finds_nil _))))

theorem finds_primary : (primary e).Finds (k + 1) Nonterminal.primary.language := by
  have hinput : (rule .inputValue (do skip .question; return [])).Finds (k + 1)
      Nonterminal.inputValue.language := finds_rule_node rfl (finds_word (finds_nil _))
  have hspecial : (rule .specialFunctionName (do return [← token [.specialName]])).Finds (k + 1)
      Nonterminal.specialFunctionName.language :=
    finds_rule_node rfl (finds_named fun _ => finds_nil _)
  have hdate : (rule .dateTimeConstructor (do
      let name ← token [.dateAndTime]
      return [name, ← parameters e])).Finds (k + 1) Nonterminal.dateTimeConstructor.language :=
    finds_rule_node rfl (.weaken (finds_named fun _ => finds_rule (finds_parameters he) fun _ =>
      finds_nil _))
  refine Finds.mono (finds_oneOf_cons finds_literal (finds_oneOf_cons (finds_bracketed he)
    (finds_oneOf_cons (finds_context he) (finds_oneOf_cons (finds_parenthesized he)
    (finds_oneOf_cons (finds_reversed he) (finds_oneOf_cons hinput (finds_oneOf_cons hspecial
    (finds_oneOf_cons hdate finds_oneOf_nil)))))))) le_rfl (le_of_eq ?_)
  rw [language_eq]
  simp only [Nonterminal.productions, Nonterminal.plain, List.map_cons, List.map_nil, List.sum_cons,
    List.sum_nil, Symbol.languages_cons, Symbol.languages_nil, Symbol.language, mul_one,
    interval_language]
  ac_rfl

end Primary

/-! ## Operators -/

theorem finds_qualifiedName : qualifiedName.Finds k Nonterminal.qualifiedName.language := by
  have hstep : ∀ names : List Tree, (do
      skip .dot
      let next ← token [.identifier]
      return names ++ [next] : Reader (List Tree)).Finds k
        (Symbol.languages [word .dot, .named [.identifier]]) :=
    fun names => .weaken (finds_word (.weaken (finds_named fun _ => finds_nil _)))
  have hne := (begins_tokenOf_mul (List.Subset.refl [Terminal.dot])
    (Symbol.languages [.named [.identifier]])).nil_notMem
  exact finds_rule_node rfl (.weaken (finds_named fun first => finds_many hstep hne _))

/-- What can stand behind every operand: a filter or a call. -/
def anyTail : Language Lexeme :=
  Symbol.languages [word .leftBracket, .rule .expression, word .rightBracket] +
    Symbol.languages [.rule .parameters]

/-- What can stand behind an operand that is no name: a path. -/
def pathTail : Language Lexeme := Symbol.languages [word .dot, .named [.identifier]]

theorem begins_tails : Begins [.leftBracket, .leftParen, .dot] (anyTail + pathTail) := by
  refine .add (.add (begins_tokenOf_mul (by simp) _) ?_) (begins_tokenOf_mul (by simp) _)
  simp only [Symbol.languages_cons, Symbol.languages_nil, Symbol.language, mul_one]
  rw [language_single rfl]
  exact begins_tokenOf_mul (by simp) _

/-- What can follow a name, and any other operand. -/
def tailsBehind (named : Bool) : Language Lexeme :=
  if named then 1 + anyTail * (anyTail + pathTail)∗ else (anyTail + pathTail)∗

theorem tailsBehind_named_le (named : Bool) : tailsBehind true ≤ tailsBehind named := by
  cases named with
  | true => exact le_rfl
  | false =>
    have h : anyTail * (anyTail + pathTail)∗ ≤ (anyTail + pathTail) * (anyTail + pathTail)∗ := by
      rw [add_mul]
      exact le_self_add
    calc 1 + anyTail * (anyTail + pathTail)∗
        ≤ 1 + (anyTail + pathTail) * (anyTail + pathTail)∗ := add_le_add_right h 1
      _ = (anyTail + pathTail)∗ := Language.one_add_self_mul_kstar_eq_kstar _

/-- The words of an operand: a name or another operand, and what can follow it. -/
theorem postfixed_language_le : Nonterminal.postfixed.language ≤
    Nonterminal.qualifiedName.language * tailsBehind true +
      Nonterminal.primary.language * tailsBehind false := by
  have hpostfixed : Nonterminal.postfixed.language =
      Nonterminal.qualifiedName.language + Nonterminal.nonNamePostfix.language := language_either rfl
  -- without names, each operand begins with a primary or with a name that has a tail already
  have hother : Nonterminal.nonNamePostfix.language = Nonterminal.primary.language +
      Nonterminal.qualifiedName.language * anyTail +
        Nonterminal.nonNamePostfix.language * (anyTail + pathTail) := by
    have hparts : Nonterminal.nonNamePostfix.language = Nonterminal.primary.language +
        Nonterminal.postfixed.language * anyTail +
          Nonterminal.nonNamePostfix.language * pathTail := by
      refine (language_eq _).trans ?_
      simp only [Nonterminal.productions, Nonterminal.plain, List.map_cons, List.map_nil,
        List.sum_cons, List.sum_nil, Symbol.languages_cons, Symbol.languages_nil, Symbol.language,
        mul_one, add_zero, anyTail, pathTail, mul_add, add_assoc]
    rw [hpostfixed] at hparts
    rw [add_mul] at hparts
    rw [mul_add]
    exact hparts.trans (by ac_rfl)
  have hloop : Nonterminal.nonNamePostfix.language ≤ (Nonterminal.primary.language +
      Nonterminal.qualifiedName.language * anyTail) * (anyTail + pathTail)∗ :=
    le_mul_kstar begins_tails.nil_notMem hother.le
  calc Nonterminal.postfixed.language
      ≤ Nonterminal.qualifiedName.language + (Nonterminal.primary.language +
          Nonterminal.qualifiedName.language * anyTail) * (anyTail + pathTail)∗ := by
        rw [hpostfixed]
        exact add_le_add_right hloop _
    _ = Nonterminal.qualifiedName.language * tailsBehind true +
          Nonterminal.primary.language * tailsBehind false := by
        simp only [tailsBehind, if_true, Bool.false_eq_true, if_false, mul_add, add_mul, mul_one,
          mul_assoc]
        ac_rfl

section Steps

variable (he : e.Finds k Nonterminal.expression.language)
include he

theorem finds_postfixStep (left : Tree × Bool) : (postfixStep e left).Finds (k + 1)
    (if left.2 then anyTail else anyTail + pathTail) ∧
      (postfixStep e left).Yields fun _ x => x.2 = false := by
  -- whatever a step reads, its tree is no name any more
  have hmark : ∀ {r : Reader Tree} {L}, r.Finds (k + 1) L →
      (do let t ← r; return (t, false) : Reader (Tree × Bool)).Finds (k + 1) L ∧
        (do let t ← r; return (t, false) : Reader (Tree × Bool)).Yields fun _ x => x.2 = false := by
    intro r L h
    have hpure := h.bind fun t => finds_pure (t, false)
    rw [mul_one] at hpure
    exact ⟨hpure, h.steady.bind fun _ t _ => yields_pure rfl⟩
  have hfilter : (do
      skip .leftBracket
      let condition ← e
      skip .rightBracket
      return [condition] : Reader (List Tree)).Finds (k + 1)
        (Symbol.languages [word .leftBracket, .rule .expression, word .rightBracket]) :=
    finds_word (finds_rule he fun condition => .weaken (finds_word (finds_nil _)))
  have hcall : (do return [← parameters e] : Reader (List Tree)).Finds (k + 1)
      (Symbol.languages [.rule .parameters]) := finds_rule (finds_parameters he) fun _ => finds_nil _
  have hpath : (do
      skip .dot
      return [← token [.identifier]] : Reader (List Tree)).Finds (k + 1) pathTail :=
    .weaken (finds_word (finds_named fun _ => finds_nil _))
  obtain ⟨hf, hf'⟩ := hmark (hfilter.extend .filterExpression left.1)
  obtain ⟨hc, hc'⟩ := hmark (hcall.extend .functionInvocation left.1)
  obtain ⟨hp, hp'⟩ := hmark (hpath.extend .pathExpression left.1)
  constructor
  · have hlast : (if left.2 then none else do
        let t ← extend .pathExpression left.1 (do
          skip .dot
          return [← token [.identifier]])
        return (t, false) : Reader (Tree × Bool)).Finds (k + 1)
          (if left.2 then 0 else pathTail) := by
      split
      · exact finds_none
      · exact hp
    refine (finds_oneOf_cons hf (finds_oneOf_cons hc (finds_oneOf_cons hlast finds_oneOf_nil))).mono
      le_rfl (le_of_eq ?_)
    cases left.2 <;> simp only [anyTail, if_true, if_false, Bool.false_eq_true, add_zero, add_assoc]
  · refine yields_oneOf ?_
    simp only [List.forall_mem_cons, List.not_mem_nil, false_implies, implies_true, and_true]
    refine ⟨hf', hc', ?_⟩
    split
    · exact yields_none hc'.inhabited
    · exact hp'

end Steps

/-- What a primary expression begins with, which is no name. -/
def primaryStarts : List Terminal :=
  [.number, .string, .keyword .trueWord, .keyword .falseWord, .keyword .nullWord, .leftBracket,
    .leftBrace, .leftParen, .rightBracket, .question, .specialName, .dateAndTime]

theorem begins_primary : Begins primaryStarts Nonterminal.primary.language := by
  have hinterval : Begins primaryStarts Nonterminal.interval.language := by
    rw [interval_language]
    exact .add (begins_tokenOf_mul (by decide) _) (.add (begins_tokenOf_mul (by decide) _)
      (begins_tokenOf_mul (by decide) _))
  rw [language_eq]
  simp only [Nonterminal.productions, Nonterminal.plain, List.map_cons, List.map_nil, List.sum_cons,
    List.sum_nil, Symbol.languages_cons, Symbol.languages_nil, Symbol.language, mul_one, add_zero]
  refine .add ?_ (.add ?_ (.add ?_ (.add hinterval (.add ?_ (.add ?_ (.add ?_ ?_))))))
  all_goals
    rw [language_single rfl]
    exact begins_tokenOf_mul (by decide) _

theorem begins_qualifiedName : Begins [.identifier] Nonterminal.qualifiedName.language := by
  rw [language_single rfl]
  exact begins_tokenOf_mul (List.Subset.refl _) _

section Operators

variable (he : e.Finds k Nonterminal.expression.language)
include he

/-- The first operand: a name, which is marked as one, or a primary expression. -/
theorem finds_firstOperand :
    (either (do return (← qualifiedName, true)) (do return (← primary e, false))).Finds (k + 1)
      (Nonterminal.qualifiedName.language + Nonterminal.primary.language) := by
  have hname := (finds_qualifiedName (k := k + 1)).bind fun t => finds_pure (t, true)
  have hother := (finds_primary he).bind fun t => finds_pure (t, false)
  rw [mul_one] at hname hother
  exact hname.either hother

theorem yields_firstOperand :
    (either (do return (← qualifiedName, true)) (do return (← primary e, false))).Yields fun u x =>
      x.2 = true → u ∈ Nonterminal.qualifiedName.language := by
  refine .either (yields_qualifiedName.bind fun u t ht => yields_pure fun _ => ?_)
    ((finds_primary he).steady.bind fun u t _ => yields_pure fun h => absurd h Bool.false_ne_true)
  rw [List.append_nil]
  exact ⟨_, ht⟩

theorem finds_tails (first : Tree × Bool) : (do
    let (t, _) ← chain (postfixStep e) first
    return t : Reader Tree).Finds (k + 1) (tailsBehind first.2) := by
  have hchain : (chain (postfixStep e) first).Finds (k + 1) (tailsBehind first.2) := by
    refine finds_chain_of (L := fun x => tailsBehind x.2) (N := tailsBehind false)
      (fun x => (finds_postfixStep he x).1) (fun x hx => ?_)
      (fun x => (finds_postfixStep he x).2.mono fun _ y hy => ?_) (fun x => ?_) first
    · refine begins_tails.nil_notMem ?_
      split at hx
      · exact .inl hx
      · exact hx
    · rw [hy]
    · cases x.2 with
      | true => exact le_rfl
      | false => exact (Language.one_add_self_mul_kstar_eq_kstar _).ge
  have hpure := hchain.bind fun x => finds_pure x.1
  rwa [mul_one] at hpure

theorem finds_postfixLevel : (postfixLevel e).Finds (k + 1) Nonterminal.postfixed.language := by
  have hfirst := finds_firstOperand he
  have hmark := yields_firstOperand he
  have hsteady : (postfixLevel e).Yields fun _ _ => True :=
    hfirst.steady.bind fun _ x _ => (finds_tails he x).steady
  have hshort : ∀ {L : Language Lexeme} (u v : List Lexeme), u ∈ L →
      (u ++ v).length < k + 1 → v.length < k + 1 := by
    intro L u v _ h
    rw [List.length_append] at h
    omega
  -- what can follow a name can follow any operand, so its mark does not matter
  have hname : (postfixLevel e).Finds (k + 1)
      (Nonterminal.qualifiedName.language * tailsBehind true) :=
    (hfirst.mono le_rfl le_self_add).bind_of_length hmark hsteady
      (fun u _ x _ => (finds_tails he x).mono le_rfl (tailsBehind_named_le x.2)) hshort
  -- a primary expression is never marked as a name: no word is both
  have hother : (postfixLevel e).Finds (k + 1)
      (Nonterminal.primary.language * tailsBehind false) := by
    refine (hfirst.mono le_rfl le_add_self).bind_of_length hmark hsteady (fun u hu x hx => ?_) hshort
    have hx : x.2 = false := by
      cases hx' : x.2 with
      | false => rfl
      | true =>
        obtain ⟨l, hl, hkind⟩ := begins_primary u hu
        obtain ⟨l', hl', hkind'⟩ := begins_qualifiedName u (hx hx')
        obtain rfl := Option.mem_unique hl hl'
        rw [List.mem_singleton.1 hkind'] at hkind
        exact absurd hkind (by decide)
    rw [← hx]
    exact finds_tails he x
  exact (hname.add hother).mono le_rfl postfixed_language_le

end Operators

/-- A rule that begins with itself or with another one. -/
theorem language_leftChain {n m : Nonterminal} {tail : List Symbol} {renamed : Option Rule}
    (hp : n.productions = [Nonterminal.plain [.rule m], ⟨.rule n :: tail, renamed⟩])
    (ht : [] ∉ Symbol.languages tail) : n.language ≤ m.language * (Symbol.languages tail)∗ := by
  have hsum : n.language = m.language + n.language * Symbol.languages tail := by
    refine (language_eq n).trans ?_
    rw [hp]
    simp only [Nonterminal.plain, List.map_cons, List.map_nil, List.sum_cons, List.sum_nil,
      Symbol.languages_cons, Symbol.languages_nil, Symbol.language, mul_one, add_zero]
  exact le_mul_kstar ht hsum.le

theorem finds_leftChain {n m : Nonterminal} {tail : List Symbol} {renamed : Option Rule} {rule : Rule}
    {kinds : List Terminal} {r : Reader Tree} {parts : Reader (List Tree)}
    (hp : n.productions = [Nonterminal.plain [.rule m], ⟨.rule n :: tail, renamed⟩])
    (ht : Begins kinds (Symbol.languages tail)) (hr : r.Finds k m.language)
    (h : parts.Finds k (Symbol.languages tail)) :
    (r >>= fun first => chain (fun left => extend rule left parts) first).Finds k n.language :=
  (hr.bind fun first => finds_chain (fun left => h.extend rule left) ht.nil_notMem first).mono le_rfl
    (language_leftChain hp ht.nil_notMem)

theorem finds_signs {operand : Reader Tree} (h : operand.Finds k Nonterminal.postfixed.language) :
    ∀ fuel, (signs operand fuel).Finds (min k (fuel + 1)) Nonterminal.unary.language := by
  have hunary : Nonterminal.unary.language = Nonterminal.postfixed.language +
      Symbol.languages [.named [.minus], .rule .unary] := by
    refine (language_eq _).trans ?_
    simp only [Nonterminal.productions, Nonterminal.plain, List.map_cons, List.map_nil,
      List.sum_cons, List.sum_nil, Symbol.languages_cons, Symbol.languages_nil, Symbol.language,
      mul_one, add_zero]
  intro fuel
  induction fuel with
  | zero =>
    refine ⟨h.steady, fun c w d _ _ hk hw => ?_, fun c v d ho hv hk _ => ?_⟩
    · obtain rfl := List.length_eq_zero_iff.1 (show w.length = 0 by omega)
      exact absurd hw Nonterminal.unary.nil_notMem
    · obtain rfl := List.length_eq_zero_iff.1 (show v.length = 0 by omega)
      exact hv.stop.trans_le (h.steady.le_reached ho)
  | succ fuel ih =>
    have hminus : (do
        let minus ← token [.minus]
        return [minus, ← signs operand fuel] : Reader (List Tree)).Finds (min k (fuel + 1) + 1)
          (Symbol.languages [.named [.minus], .rule .unary]) :=
      finds_named fun _ => finds_rule ih fun _ => finds_nil _
    have hpair := hminus.bind fun ts => finds_pure (Rule.arithmeticExpression, ts)
    rw [mul_one] at hpair
    rw [hunary]
    exact (h.mono (Nat.min_le_left _ _) le_rfl).either (hpair.node.mono (by omega) le_rfl)

theorem finds_leftJoined {n m : Nonterminal} {operators : List Terminal} {operand : Reader Tree}
    {renamed : Option Rule} (hm : operand.Finds k m.language)
    (hp : n.productions =
      [Nonterminal.plain [.rule m], ⟨[.rule n, .named operators, .rule m], renamed⟩]) :
    (leftJoined operand operators).Finds k n.language :=
  finds_leftChain hp (begins_tokenOf_mul (List.Subset.refl _) _) hm
    (.weaken (finds_named fun _ => finds_rule hm fun _ => finds_nil _))

theorem finds_wordJoined {n m : Nonterminal} {word : Keyword} {operand : Reader Tree} {rule : Rule}
    {renamed : Option Rule} (hm : operand.Finds k m.language)
    (hp : n.productions = [Nonterminal.plain [.rule m], ⟨[.rule n, wordOf word, .rule m], renamed⟩]) :
    (wordJoined operand word rule).Finds k n.language :=
  finds_leftChain hp (begins_tokenOf_mul (List.Subset.refl _) _) hm
    (.weaken (finds_word (finds_rule hm fun _ => finds_nil _)))

section Levels

variable (he : e.Finds k Nonterminal.expression.language)
include he

theorem finds_unaryLevel : (unaryLevel e).Finds (k + 1) Nonterminal.unary.language :=
  .of_rest (finds_signs (finds_postfixLevel he))

theorem finds_sumLevel : (sumLevel e).Finds (k + 1) Nonterminal.sum.language :=
  finds_leftJoined (finds_leftJoined (finds_leftJoined (finds_unaryLevel he) rfl) rfl) rfl

theorem finds_instanceLevel : (instanceLevel e).Finds (k + 1) Nonterminal.instanceTest.language := by
  have htype : (rule .type (do return [← token [.identifier]])).Finds (k + 1)
      Nonterminal.type.language := finds_rule_node rfl (finds_named fun _ => finds_nil _)
  have hparts : (do
      keyword .instanceWord
      keyword .ofWord
      return [← rule .type (do return [← token [.identifier]])] : Reader (List Tree)).Finds (k + 1)
        (Symbol.languages [wordOf .instanceWord, wordOf .ofWord, .rule .type]) :=
    .weaken (finds_word (.weaken (finds_word (finds_rule htype fun _ => finds_nil _))))
  exact finds_leftChain rfl (begins_tokenOf_mul (List.Subset.refl _) _) (finds_sumLevel he) hparts

/-! ## Tests and comparisons -/

omit he in
/-- The endpoint of a test by comparison is a sum. -/
theorem endpoint_language : Nonterminal.endpoint.language = Nonterminal.sum.language := by
  rw [language_single rfl]
  exact mul_one _

theorem finds_endpoint : (sumLevel e).Finds (k + 1) Nonterminal.endpoint.language := by
  rw [endpoint_language]
  exact finds_sumLevel he

theorem finds_simpleTest : (simpleTest e).Finds (k + 1)
    Nonterminal.simplePositiveUnaryTest.language :=
  finds_rule_node rfl (.weaken (finds_token_rule (language_token rfl rfl) fun _ =>
    finds_rule (finds_endpoint he) fun _ => finds_nil _))

theorem finds_tests : (tests e).Finds k Nonterminal.positiveUnaryTests.language := by
  refine finds_rule_node rfl (finds_commas ?_)
  rw [language_either rfl]
  exact (finds_simpleTest he).weaken.either he

theorem finds_comparisonRest : (comparisonRest e).Finds (k + 1)
    (Symbol.languages [.rule .compareOp, .rule .instanceTest] +
      (Symbol.languages [wordOf .betweenWord, .rule .instanceTest, wordOf .andWord,
          .rule .instanceTest] +
        (Symbol.languages [wordOf .inWord, .rule .inTest] +
          Symbol.languages [wordOf .inWord, word .leftParen, .rule .positiveUnaryTests,
            word .rightParen]))) := by
  have hinst := finds_instanceLevel he
  have hside : (either (simpleTest e) (instanceLevel e)).Finds (k + 1)
      Nonterminal.inTest.language := by
    rw [language_either rfl]
    exact (finds_simpleTest he).either hinst
  have hsimple : (do
      let op ← relation
      return [op, ← instanceLevel e] : Reader (List Tree)).Finds (k + 1)
        (Symbol.languages [.rule .compareOp, .rule .instanceTest]) :=
    .weaken (finds_token_rule (language_token rfl rfl) fun _ => finds_rule hinst fun _ => finds_nil _)
  have hbetween : (do
      let between ← token [.keyword .betweenWord]
      let low ← instanceLevel e
      let and ← token [.keyword .andWord]
      return [between, low, and, ← instanceLevel e] : Reader (List Tree)).Finds (k + 1)
        (Symbol.languages [wordOf .betweenWord, .rule .instanceTest, wordOf .andWord,
          .rule .instanceTest]) :=
    .weaken (finds_text fun _ => finds_rule hinst fun _ => .weaken (finds_text fun _ =>
      finds_rule hinst fun _ => finds_nil _))
  have hlist : ∀ word : Tree, (do
      let opening ← token [.leftParen]
      let ts ← tests e
      return [word, opening, ts, ← token [.rightParen]] : Reader (List Tree)).Finds (k + 1)
        (Symbol.languages [Nonterminal.word .leftParen, .rule .positiveUnaryTests,
          Nonterminal.word .rightParen]) :=
    fun _ => finds_text fun _ => finds_rule (finds_tests he) fun _ =>
      .weaken (finds_text fun _ => finds_nil _)
  have hin : (do
      let word ← token [.keyword .inWord]
      either
        (do return [word, ← either (simpleTest e) (instanceLevel e)])
        (do
          let opening ← token [.leftParen]
          let ts ← tests e
          return [word, opening, ts, ← token [.rightParen]]) : Reader (List Tree)).Finds (k + 1)
        (tokenOf [.keyword .inWord] * (Symbol.languages [.rule .inTest] +
          Symbol.languages [word .leftParen, .rule .positiveUnaryTests, word .rightParen])) :=
    .weaken (finds_token_bind fun word => .either (finds_rule hside fun _ => finds_nil _)
      (hlist word))
  -- the keyword is read before the choice between a test and parentheses
  have hin' : (Symbol.languages [wordOf .inWord, .rule .inTest] + Symbol.languages [wordOf .inWord,
      word .leftParen, .rule .positiveUnaryTests, word .rightParen]) =
      tokenOf [.keyword .inWord] * (Symbol.languages [.rule .inTest] +
        Symbol.languages [word .leftParen, .rule .positiveUnaryTests, word .rightParen]) :=
    (mul_add _ _ _).symm
  rw [hin']
  exact (finds_oneOf_cons hsimple (finds_oneOf_cons hbetween (finds_oneOf_cons hin
    finds_oneOf_nil))).mono le_rfl (by simp only [add_zero, le_refl])

theorem finds_comparisonLevel :
    (comparisonLevel e).Finds (k + 1) Nonterminal.compareTest.language := by
  have hfork := (finds_instanceLevel he).fork (fun t => finds_pure t) fun left =>
    (finds_comparisonRest he).extend .comparison left
  refine hfork.mono le_rfl (le_of_eq ?_)
  rw [language_either rfl, language_eq .comparison]
  simp only [Nonterminal.productions, Nonterminal.plain, List.map_cons, List.map_nil, List.sum_cons,
    List.sum_nil, Symbol.languages_cons, Symbol.languages_nil, Symbol.language, mul_one, add_zero,
    mul_add]

theorem finds_orLevel : (orLevel e).Finds (k + 1) Nonterminal.orTest.language :=
  finds_wordJoined (finds_wordJoined (finds_comparisonLevel he) rfl) rfl

/-! ## Loops and choices -/

theorem finds_iterationContext :
    (iterationContext e).Finds k Nonterminal.iterationContext.language := by
  have hrange : ∀ first : Tree, (do
      skip .dots
      return [first, ← e] : Reader (List Tree)).Finds k
        (Symbol.languages [word .dots, .rule .expression]) :=
    fun _ => .weaken (finds_word (finds_rule he fun _ => finds_nil _))
  have hfork := he.fork hrange fun first => finds_pure [first]
  refine finds_rule_node rfl (hfork.mono le_rfl (le_of_eq ?_))
  simp only [Nonterminal.plain, Symbol.languages_cons, Symbol.languages_nil, Symbol.language, mul_one,
    mul_add]
  exact add_comm _ _

theorem finds_inExpressions : (inExpressions e).Finds k Nonterminal.inExpressions.language := by
  have hitem : (inExpression e).Finds k Nonterminal.inExpression.language :=
    finds_rule_node rfl (.weaken (finds_named fun _ => .weaken (finds_word
      (finds_rule (finds_iterationContext he) fun _ => finds_nil _))))
  exact finds_rule_node rfl (finds_commas hitem)

theorem finds_forExpression :
    (forExpression e).Finds (k + 1) Nonterminal.forExpression.language :=
  finds_rule_node rfl (finds_word (finds_rule (finds_inExpressions he) fun _ => .weaken (finds_word
    (finds_rule he fun _ => finds_nil _))))

theorem finds_quantifiedExpression :
    (quantifiedExpression e).Finds (k + 1) Nonterminal.quantifiedExpression.language :=
  finds_rule_node rfl (finds_named fun _ => finds_rule (finds_inExpressions he) fun _ =>
    .weaken (finds_word (finds_rule he fun _ => finds_nil _)))

/-- A choice up to the end of its first branch. -/
theorem finds_ifHead : (do
    keyword .ifWord
    let condition ← e
    keyword .thenWord
    return [condition, ← e] : Reader (List Tree)).Finds (k + 1)
      (Symbol.languages [wordOf .ifWord, .rule .expression, wordOf .thenWord, .rule .expression]) :=
  finds_word (finds_rule he fun _ => .weaken (finds_word (finds_rule he fun _ => finds_nil _)))

theorem finds_elseBranch (parts : List Tree) : (do
    keyword .elseWord
    return parts ++ [← e] : Reader (List Tree)).Finds (k + 1)
      (Symbol.languages [wordOf .elseWord, .rule .expression]) :=
  finds_word (finds_rule he fun _ => finds_nil _)

theorem finds_ifExpression : (ifExpression e).Finds (k + 1) Nonterminal.ifExpression.language := by
  refine finds_rule_node rfl (((finds_ifHead he).fork (finds_elseBranch he)
    fun parts => finds_pure parts).mono le_rfl (le_of_eq ?_))
  rw [← mul_add, add_comm (Symbol.languages _) 1]
  exact (Symbol.languages_append [wordOf .ifWord, .rule .expression, wordOf .thenWord,
    .rule .expression] [.optional [wordOf .elseWord, .rule .expression]]).trans (by
      simp only [Symbol.languages_cons, Symbol.languages_nil, Symbol.language, mul_one])

theorem finds_expressionLevel :
    (expressionLevel e).Finds (k + 1) Nonterminal.expression.language := by
  refine (finds_oneOf_cons (finds_forExpression he) (finds_oneOf_cons
    (finds_quantifiedExpression he) (finds_oneOf_cons (finds_ifExpression he) (finds_oneOf_cons
    (finds_orLevel he) finds_oneOf_nil)))).mono le_rfl (le_of_eq ?_)
  refine (language_eq _).trans ?_
  simp only [Nonterminal.productions, Nonterminal.plain, List.map_cons, List.map_nil, List.sum_cons,
    List.sum_nil, Symbol.languages_cons, Symbol.languages_nil, Symbol.language, mul_one]

end Levels

/-- A reader that goes `fuel` deep finds all expressions of fewer tokens. -/
theorem finds_expression (fuel : ℕ) :
    (expression fuel).Finds fuel Nonterminal.expression.language := by
  induction fuel with
  | zero => exact ⟨(yields_expression 0).mono fun _ _ _ => trivial,
      fun _ _ _ _ _ hk _ => absurd hk (Nat.not_lt_zero _),
      fun _ _ _ _ _ hk _ => absurd hk (Nat.not_lt_zero _)⟩
  | succ fuel ih => exact finds_expressionLevel ih

/-! ## Sources -/

section Sources

variable (he : e.Finds k Nonterminal.expression.language)
include he

theorem finds_expressions : (expressions e).Finds k Nonterminal.expressions.language :=
  finds_rule_node rfl (finds_commas he)

theorem finds_unaryTests : (unaryTests e).Finds k Nonterminal.unaryTests.language := by
  have hplain : (do return [← tests e] : Reader (List Tree)).Finds k
      (Symbol.languages [.rule .positiveUnaryTests]) :=
    finds_rule (finds_tests he) fun _ => finds_nil _
  have hnegated : (do
      let word ← token [.keyword .notWord]
      let opening ← token [.leftParen]
      let ts ← tests e
      return [word, opening, ts, ← token [.rightParen]] : Reader (List Tree)).Finds k
        (Symbol.languages [wordOf .notWord, word .leftParen, .rule .positiveUnaryTests,
          word .rightParen]) :=
    .weaken (finds_text fun _ => .weaken (finds_text fun _ => finds_rule (finds_tests he) fun _ =>
      .weaken (finds_text fun _ => finds_nil _)))
  have hwildcard : (rule .wildcard (do return [← token [.minus]])).Finds k
      Nonterminal.wildcard.language :=
    finds_rule_node rfl (.weaken (finds_named fun _ => finds_nil _))
  have hlone : (do return [← rule .wildcard (do return [← token [.minus]])] :
      Reader (List Tree)).Finds k (Symbol.languages [.rule .wildcard]) :=
    finds_rule hwildcard fun _ => finds_nil _
  have hparts := finds_oneOf_cons hplain (finds_oneOf_cons hnegated (finds_oneOf_cons hlone
    finds_oneOf_nil))
  have hpair := hparts.bind fun ts => finds_pure (Rule.unaryTests, ts)
  rw [mul_one] at hpair
  rw [language_eq]
  exact hpair.node

end Sources

end Grammar

end Criterion

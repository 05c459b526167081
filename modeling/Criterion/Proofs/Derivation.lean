import Criterion.Syntax.Tree
import Mathlib.Computability.Language
import Mathlib.Order.CompletePartialOrder

/-!
# The grammar as a table

The productions of the language, and what it means that a sequence of tokens derives from a rule
and has a tree. It says nothing about how a source is read.

* `Nonterminal.productions`: the productions of each rule.
* `Nonterminal.shape`: which trees a production leaves. Punctuation and keywords that the grammar
  writes as text leave no tree, except in rules that keep them; some rules give way to their parts.
* `Derives`: the derivations, with tokens and trees.
* `mem_language`: a derived word lies in the language that is computed from a production.
-/

namespace Criterion

open Computability

/-- The rules of the grammar, those that no tree shows included. -/
inductive Nonterminal where
  | expressions
  | unaryTests
  | wildcard
  | positiveUnaryTests
  | positiveUnaryTest
  | simplePositiveUnaryTest
  | endpoint
  | expression
  | forExpression
  | quantifiedExpression
  | ifExpression
  | inExpressions
  | inExpression
  | iterationContext
  | orTest
  | andTest
  | compareTest
  | comparison
  | inTest
  | compareOp
  | instanceTest
  | type
  | sum
  | product
  | power
  | unary
  | postfixed
  | nonNamePostfix
  | primary
  | literal
  | qualifiedName
  | specialFunctionName
  | dateTimeConstructor
  | inputValue
  | parameters
  | positionalParameters
  | list
  | context
  | contextEntry
  | key
  | interval
  | intervalStart
  | intervalEnd
  | parenthesizedExpression
deriving DecidableEq

inductive Symbol where
  /-- A token of one of some kinds, which the grammar names. -/
  | named (kinds : List Terminal)
  /-- A token of one of some kinds, which the grammar writes as text. -/
  | text (kinds : List Terminal)
  | rule (n : Nonterminal)
  | many (body : List Symbol)
  | optional (body : List Symbol)

/-- One way to derive a rule, and the name under which the tree shows it, if it has another one. -/
structure Production where
  body : List Symbol
  renamed : Option Rule

/-- What a rule leaves in the tree. -/
inductive Shaping where
  /-- A node. One that `keeps` has its text among its parts. -/
  | node (rule : Rule) (keeps : Bool)
  /-- Its only part, or a node if there are several. -/
  | single (rule : Rule)
  /-- Its parts. -/
  | inlined

namespace Nonterminal

/-- A text that stands in the grammar. -/
def word (t : Terminal) : Symbol := .text [t]

def wordOf (k : Keyword) : Symbol := .text [.keyword k]

/-- One or more of a rule, with commas between them. -/
def commas (n : Nonterminal) : List Symbol := [.rule n, .many [word .comma, .rule n]]

def plain (body : List Symbol) : Production := ⟨body, none⟩

def productions : Nonterminal → List Production
  | .expressions => [plain (commas .expression)]
  | .unaryTests =>
    [plain [.rule .positiveUnaryTests],
      plain [wordOf .notWord, word .leftParen, .rule .positiveUnaryTests, word .rightParen],
      plain [.rule .wildcard]]
  | .wildcard => [plain [.named [.minus]]]
  | .positiveUnaryTests => [plain (commas .positiveUnaryTest)]
  | .positiveUnaryTest => [plain [.rule .simplePositiveUnaryTest], plain [.rule .expression]]
  | .simplePositiveUnaryTest => [plain [.rule .compareOp, .rule .endpoint]]
  | .endpoint => [plain [.rule .sum]]
  | .expression =>
    [plain [.rule .forExpression], plain [.rule .quantifiedExpression],
      plain [.rule .ifExpression], plain [.rule .orTest]]
  | .forExpression =>
    [plain [wordOf .forWord, .rule .inExpressions, wordOf .returnWord, .rule .expression]]
  | .quantifiedExpression =>
    [plain [.named [.keyword .everyWord, .keyword .someWord], .rule .inExpressions,
      wordOf .satisfiesWord, .rule .expression]]
  | .ifExpression =>
    [plain [wordOf .ifWord, .rule .expression, wordOf .thenWord, .rule .expression,
      .optional [wordOf .elseWord, .rule .expression]]]
  | .inExpressions => [plain (commas .inExpression)]
  | .inExpression => [plain [.named [.identifier], wordOf .inWord, .rule .iterationContext]]
  | .iterationContext => [plain [.rule .expression, .optional [word .dots, .rule .expression]]]
  | .orTest =>
    [plain [.rule .andTest],
      ⟨[.rule .orTest, wordOf .orWord, .rule .andTest], some .disjunction⟩]
  | .andTest =>
    [plain [.rule .compareTest],
      ⟨[.rule .andTest, wordOf .andWord, .rule .compareTest], some .conjunction⟩]
  | .compareTest => [plain [.rule .instanceTest], plain [.rule .comparison]]
  | .comparison =>
    [plain [.rule .instanceTest, .rule .compareOp, .rule .instanceTest],
      plain [.rule .instanceTest, wordOf .betweenWord, .rule .instanceTest, wordOf .andWord,
        .rule .instanceTest],
      plain [.rule .instanceTest, wordOf .inWord, .rule .inTest],
      plain [.rule .instanceTest, wordOf .inWord, word .leftParen, .rule .positiveUnaryTests,
        word .rightParen]]
  | .inTest => [plain [.rule .simplePositiveUnaryTest], plain [.rule .instanceTest]]
  | .compareOp => [plain [.named [.equal, .differs, .atMost, .atLeast, .less, .greater]]]
  | .instanceTest =>
    [plain [.rule .sum],
      ⟨[.rule .instanceTest, wordOf .instanceWord, wordOf .ofWord, .rule .type],
        some .instanceOf⟩]
  | .type => [plain [.named [.identifier]]]
  | .sum =>
    [plain [.rule .product],
      ⟨[.rule .sum, .named [.plus, .minus], .rule .product], some .arithmeticExpression⟩]
  | .product =>
    [plain [.rule .power],
      ⟨[.rule .product, .named [.star, .slash], .rule .power], some .arithmeticExpression⟩]
  | .power =>
    [plain [.rule .unary],
      ⟨[.rule .power, .named [.power], .rule .unary], some .arithmeticExpression⟩]
  | .unary =>
    [plain [.rule .postfixed], ⟨[.named [.minus], .rule .unary], some .arithmeticExpression⟩]
  | .postfixed => [plain [.rule .qualifiedName], plain [.rule .nonNamePostfix]]
  | .nonNamePostfix =>
    [plain [.rule .primary],
      ⟨[.rule .postfixed, word .leftBracket, .rule .expression, word .rightBracket],
        some .filterExpression⟩,
      ⟨[.rule .postfixed, .rule .parameters], some .functionInvocation⟩,
      ⟨[.rule .nonNamePostfix, word .dot, .named [.identifier]], some .pathExpression⟩]
  | .primary =>
    [plain [.rule .literal], plain [.rule .list], plain [.rule .context], plain [.rule .interval],
      plain [.rule .parenthesizedExpression], plain [.rule .inputValue],
      plain [.rule .specialFunctionName], plain [.rule .dateTimeConstructor]]
  | .literal =>
    [plain [.named [.number, .string, .keyword .trueWord, .keyword .falseWord,
      .keyword .nullWord]]]
  | .qualifiedName => [plain [.named [.identifier], .many [word .dot, .named [.identifier]]]]
  | .specialFunctionName => [plain [.named [.specialName]]]
  | .dateTimeConstructor => [plain [.named [.dateAndTime], .rule .parameters]]
  | .inputValue => [plain [word .question]]
  | .parameters =>
    [plain [word .leftParen, .optional [.rule .positionalParameters], word .rightParen]]
  | .positionalParameters => [plain (commas .expression)]
  | .list => [plain [word .leftBracket, .optional (commas .expression), word .rightBracket]]
  | .context => [plain [word .leftBrace, .optional (commas .contextEntry), word .rightBrace]]
  | .contextEntry => [plain [.rule .key, word .colon, .rule .expression]]
  | .key => [plain [.named [.identifier, .string]]]
  | .interval =>
    [plain [.rule .intervalStart, .rule .expression, word .dots, .rule .expression,
      .rule .intervalEnd]]
  | .intervalStart => [plain [.text [.leftParen, .rightBracket, .leftBracket]]]
  | .intervalEnd => [plain [.text [.rightParen, .leftBracket, .rightBracket]]]
  | .parenthesizedExpression =>
    [plain [word .leftParen, .rule .expression, word .rightParen]]

/-- What each rule leaves in the tree. -/
def shaping : Nonterminal → Shaping
  | .expressions => .node .expressions false
  | .unaryTests => .node .unaryTests true
  | .wildcard => .node .wildcard false
  | .positiveUnaryTests => .node .positiveUnaryTests false
  | .positiveUnaryTest => .single (.other "positive_unary_test")
  | .simplePositiveUnaryTest => .node .simplePositiveUnaryTest false
  | .endpoint => .single (.other "endpoint")
  | .expression => .single (.other "expression")
  | .forExpression => .node .forExpression false
  | .quantifiedExpression => .node .quantifiedExpression false
  | .ifExpression => .node .ifExpression false
  | .inExpressions => .node .inExpressions false
  | .inExpression => .node .inExpression false
  | .iterationContext => .node .iterationContext false
  | .orTest => .single (.other "or_test")
  | .andTest => .single (.other "and_test")
  | .compareTest => .single (.other "compare_test")
  | .comparison => .node .comparison true
  | .inTest => .inlined
  | .compareOp => .inlined
  | .instanceTest => .single (.other "instance_test")
  | .type => .node .type false
  | .sum => .single (.other "sum")
  | .product => .single (.other "product")
  | .power => .single (.other "power")
  | .unary => .single (.other "unary")
  | .postfixed => .single (.other "postfix")
  | .nonNamePostfix => .single (.other "non_name_postfix")
  | .primary => .single (.other "primary")
  | .literal => .single (.other "literal")
  | .qualifiedName => .node .qualifiedName false
  | .specialFunctionName => .node .specialFunctionName false
  | .dateTimeConstructor => .node .dateTimeConstructor false
  | .inputValue => .node .inputValue false
  | .parameters => .node .parameters false
  | .positionalParameters => .node .positionalParameters false
  | .list => .node .list false
  | .context => .node .context false
  | .contextEntry => .node .contextEntry false
  | .key => .node .key false
  | .interval => .node .interval false
  | .intervalStart => .node .intervalStart true
  | .intervalEnd => .node .intervalEnd true
  | .parenthesizedExpression => .node .parenthesizedExpression false

/-- Whether a rule keeps the text of its productions. -/
def keeps (n : Nonterminal) : Bool :=
  match n.shaping with
  | .node _ keeps => keeps
  | _ => false

end Nonterminal

/-- From the start of the first to the end of the last of some tokens. -/
def spanOf (w : List Lexeme) : Option Span := do
  return ⟨(← w.head?).start, (← w.getLast?).stop⟩

/-- The trees that a production leaves, made of the tokens and the trees of its body. -/
def Nonterminal.shape (n : Nonterminal) (p : Production) (w : List Lexeme) (ts : List Tree) :
    List Tree :=
  match p.renamed, n.shaping with
  | some rule, _ => [.node rule (spanOf w) ts]
  | none, .node rule _ => [.node rule (spanOf w) ts]
  | none, .inlined => ts
  | none, .single rule =>
    match ts with
    | [t] => [t]
    | ts => [.node rule (spanOf w) ts]

/-- Derivations of tokens from the body of a production, with the trees that are left. -/
inductive Derives : Bool → List Symbol → List Lexeme → List Tree → Prop where
  | nil {keeps : Bool} : Derives keeps [] [] []
  | named {keeps : Bool} {kinds : List Terminal} {rest : List Symbol} {l : Lexeme} {w : List Lexeme}
    {ts : List Tree} : l.kind ∈ kinds → Derives keeps rest w ts →
      Derives keeps (.named kinds :: rest) (l :: w) (.token l.token :: ts)
  | kept {kinds : List Terminal} {rest : List Symbol} {l : Lexeme} {w : List Lexeme}
    {ts : List Tree} : l.kind ∈ kinds → Derives true rest w ts →
      Derives true (.text kinds :: rest) (l :: w) (.token l.token :: ts)
  | dropped {kinds : List Terminal} {rest : List Symbol} {l : Lexeme} {w : List Lexeme}
    {ts : List Tree} : l.kind ∈ kinds → Derives false rest w ts →
      Derives false (.text kinds :: rest) (l :: w) ts
  | rule {keeps : Bool} {n : Nonterminal} {p : Production} {rest : List Symbol} {v w : List Lexeme}
    {us ts : List Tree} : p ∈ n.productions → Derives n.keeps p.body v us →
      Derives keeps rest w ts → Derives keeps (.rule n :: rest) (v ++ w) (n.shape p v us ++ ts)
  | absent {keeps : Bool} {body rest : List Symbol} {w : List Lexeme} {ts : List Tree} :
    Derives keeps rest w ts → Derives keeps (.optional body :: rest) w ts
  | present {keeps : Bool} {body rest : List Symbol} {w : List Lexeme} {ts : List Tree} :
    Derives keeps (body ++ rest) w ts → Derives keeps (.optional body :: rest) w ts
  | done {keeps : Bool} {body rest : List Symbol} {w : List Lexeme} {ts : List Tree} :
    Derives keeps rest w ts → Derives keeps (.many body :: rest) w ts
  | again {keeps : Bool} {body rest : List Symbol} {w : List Lexeme} {ts : List Tree} :
    Derives keeps (body ++ .many body :: rest) w ts → Derives keeps (.many body :: rest) w ts

/-- The tokens derive from the rule and leave the trees. -/
def Nonterminal.Reads (n : Nonterminal) (w : List Lexeme) (ts : List Tree) : Prop :=
  ∃ p ∈ n.productions, ∃ us, Derives n.keeps p.body w us ∧ ts = n.shape p w us

/-- The token sequences that derive from a rule. -/
def Nonterminal.language (n : Nonterminal) : Language Lexeme := {w | ∃ ts, n.Reads w ts}

/-! ## Languages -/

/-- One token of one of some kinds. -/
def tokenOf (kinds : List Terminal) : Language Lexeme :=
  {w | ∃ l : Lexeme, w = [l] ∧ l.kind ∈ kinds}

theorem mem_tokenOf {kinds : List Terminal} {l : Lexeme} (h : l.kind ∈ kinds) :
    [l] ∈ tokenOf kinds :=
  ⟨l, rfl, h⟩

mutual

/-- The token sequences of a symbol, given those of the rules. -/
def Symbol.language : Symbol → Language Lexeme
  | .named kinds => tokenOf kinds
  | .text kinds => tokenOf kinds
  | .rule n => n.language
  | .many body => (Symbol.languages body)∗
  | .optional body => 1 + Symbol.languages body

/-- The token sequences of some symbols, one after the other. -/
def Symbol.languages : List Symbol → Language Lexeme
  | [] => 1
  | s :: rest => s.language * Symbol.languages rest

end

namespace Symbol

variable {keeps : Bool} {a b body rest : List Symbol} {u v w : List Lexeme} {us vs ts : List Tree}

@[simp] theorem languages_nil : languages [] = 1 := rfl

@[simp] theorem languages_cons (s : Symbol) (rest : List Symbol) :
    languages (s :: rest) = s.language * languages rest := rfl

theorem languages_append (a b : List Symbol) : languages (a ++ b) = languages a * languages b := by
  induction a with
  | nil => simp
  | cons s rest ih => simp [ih, mul_assoc]

/-- A derived word lies in the language of the body. -/
theorem mem_languages (h : Derives keeps body w ts) : w ∈ languages body := by
  induction h with
  | nil => exact Language.nil_mem_one
  | named hl _ ih => exact Language.append_mem_mul (mem_tokenOf hl) ih
  | kept hl _ ih => exact Language.append_mem_mul (mem_tokenOf hl) ih
  | dropped hl _ ih => exact Language.append_mem_mul (mem_tokenOf hl) ih
  | @rule _ n p _ v w _ _ hp hd _ _ ih =>
    have hv : v ∈ n.language := ⟨_, p, hp, _, hd, rfl⟩
    exact Language.append_mem_mul hv ih
  | @absent _ body rest w _ _ ih =>
    exact Language.append_mem_mul (a := []) (.inl rfl) ih
  | @present _ body rest w _ _ ih =>
    rw [languages_append] at ih
    obtain ⟨u, hu, v, hv, rfl⟩ := Language.mem_mul.1 ih
    exact Language.append_mem_mul (.inr hu) hv
  | @done _ body rest w _ _ ih =>
    exact Language.append_mem_mul (a := []) (Language.nil_mem_kstar _) ih
  | @again _ body rest w _ _ ih =>
    rw [languages_append, languages_cons, ← mul_assoc] at ih
    obtain ⟨u, hu, v, hv, rfl⟩ := Language.mem_mul.1 ih
    refine Language.append_mem_mul ?_ hv
    change u ∈ (languages body)∗
    rw [← Language.one_add_self_mul_kstar_eq_kstar]
    exact .inr hu

/-- Derivations from two bodies, one after the other. -/
theorem derives_append (h : Derives keeps a u us) (h' : Derives keeps b v vs) :
    Derives keeps (a ++ b) (u ++ v) (us ++ vs) := by
  induction h with
  | nil => exact h'
  | named hl _ ih => exact .named hl (ih h')
  | kept hl _ ih => exact .kept hl (ih h')
  | dropped hl _ ih => exact .dropped hl (ih h')
  | rule hp hd _ _ ih =>
    rw [List.append_assoc, List.append_assoc]
    exact .rule hp hd (ih h')
  | absent _ ih => exact .absent (ih h')
  | present _ ih => exact .present (by simpa using ih h')
  | done _ ih => exact .done (ih h')
  | again _ ih => exact .again (by simpa using ih h')

theorem derives_text (keeps : Bool) {kinds : List Terminal} {l : Lexeme} (hl : l.kind ∈ kinds) :
    ∃ ts, Derives keeps [.text kinds] [l] ts := by
  cases keeps with
  | true => exact ⟨_, .kept hl .nil⟩
  | false => exact ⟨_, .dropped hl .nil⟩

mutual

/-- A word of the language of a symbol derives from it. -/
theorem derives_of_mem (keeps : Bool) : ∀ (s : Symbol) (w : List Lexeme), w ∈ s.language →
    ∃ ts, Derives keeps [s] w ts
  | .named _, _, ⟨_, hw, hl⟩ => hw ▸ ⟨_, .named hl .nil⟩
  | .text _, _, ⟨_, hw, hl⟩ => hw ▸ derives_text keeps hl
  | .rule n, w, ⟨_, p, hp, us, hd, _⟩ => by
    have h : Derives keeps [.rule n] (w ++ []) (n.shape p w us ++ []) := .rule hp hd .nil
    rw [List.append_nil] at h
    exact ⟨_, h⟩
  | .many body, _, ⟨ws, hw, hws⟩ => by
    subst hw
    induction ws with
    | nil => exact ⟨[], .done .nil⟩
    | cons u ws ih =>
      obtain ⟨us, hus⟩ := derives_of_mem_languages keeps body u (hws u List.mem_cons_self)
      obtain ⟨vs, hvs⟩ := ih fun v hv => hws v (List.mem_cons_of_mem _ hv)
      exact ⟨us ++ vs, .again (derives_append hus hvs)⟩
  | .optional _, _, .inl hw => hw ▸ ⟨[], .absent .nil⟩
  | .optional body, w, .inr hw => by
    obtain ⟨ts, hts⟩ := derives_of_mem_languages keeps body w hw
    exact ⟨ts, .present (by simpa using hts)⟩

/-- A word of the language of a body derives from it. -/
theorem derives_of_mem_languages (keeps : Bool) : ∀ (body : List Symbol) (w : List Lexeme),
    w ∈ languages body → ∃ ts, Derives keeps body w ts
  | [], _, hw => hw ▸ ⟨[], .nil⟩
  | s :: rest, w, hw => by
    obtain ⟨u, hu, v, hv, rfl⟩ := Language.mem_mul.1 hw
    obtain ⟨us, hus⟩ := derives_of_mem keeps s u hu
    obtain ⟨vs, hvs⟩ := derives_of_mem_languages keeps rest v hv
    exact ⟨us ++ vs, derives_append hus hvs⟩

end

end Symbol

/-- **The language of a rule is the sum of the languages of its productions.** -/
theorem language_eq (n : Nonterminal) :
    n.language = (n.productions.map fun p => Symbol.languages p.body).sum := by
  have hsum : ∀ (ps : List Production) (w : List Lexeme),
      w ∈ (ps.map fun p => Symbol.languages p.body).sum ↔
        ∃ p ∈ ps, w ∈ Symbol.languages p.body := by
    intro ps w
    induction ps with
    | nil => simp [Language.notMem_zero]
    | cons p ps ih => rw [List.map_cons, List.sum_cons, Language.mem_add, ih]; simp
  ext w
  rw [hsum]
  constructor
  · rintro ⟨_, p, hp, us, hd, -⟩
    exact ⟨p, hp, Symbol.mem_languages hd⟩
  · rintro ⟨p, hp, hw⟩
    obtain ⟨us, hd⟩ := Symbol.derives_of_mem_languages n.keeps p.body w hw
    exact ⟨_, p, hp, us, hd, rfl⟩

/-! ## Single trees -/

/-- Symbols that no derivation can skip. -/
def Symbol.isRequired : Symbol → Bool
  | .named _ | .text _ | .rule _ => true
  | .many _ | .optional _ => false

theorem productions_required (n : Nonterminal) :
    ∀ p ∈ n.productions, p.body.any Symbol.isRequired = true := by
  cases n <;> decide

theorem Derives.ne_nil {keeps : Bool} {body : List Symbol} {w : List Lexeme} {ts : List Tree}
    (h : Derives keeps body w ts) (hbody : body.any Symbol.isRequired = true) : w ≠ [] := by
  induction h with
  | nil => simp at hbody
  | named | kept | dropped => exact List.cons_ne_nil _ _
  | rule hp _ _ ih _ => exact List.append_ne_nil_of_left_ne_nil (ih (productions_required _ _ hp)) _
  | absent _ ih | done _ ih => exact ih (by simpa [Symbol.isRequired] using hbody)
  | present _ ih | again _ ih =>
    refine ih ?_
    simp only [List.any_cons, Symbol.isRequired, Bool.false_or] at hbody
    simp [hbody]

/-- A rule derives no empty word. -/
theorem Nonterminal.Reads.ne_nil {n : Nonterminal} {w : List Lexeme} {ts : List Tree}
    (h : n.Reads w ts) : w ≠ [] := by
  obtain ⟨p, hp, us, hd, -⟩ := h
  exact hd.ne_nil (productions_required n p hp)

def Nonterminal.isInlined (n : Nonterminal) : Bool :=
  match n.shaping with
  | .inlined => true
  | _ => false

/-- Bodies that leave one tree: a named token, or a rule that is not inlined. -/
def Symbol.isSingle : List Symbol → Bool
  | [.named _] => true
  | [.rule n] => !n.isInlined
  | _ => false

theorem productions_single {n : Nonterminal} {rule : Rule} (h : n.shaping = .single rule) :
    ∀ p ∈ n.productions, p.renamed = none → Symbol.isSingle p.body = true := by
  cases n <;> simp only [Nonterminal.shaping, reduceCtorEq] at h <;> decide

theorem Derives.single {keeps : Bool} {body : List Symbol} {w : List Lexeme} {ts : List Tree}
    (h : Derives keeps body w ts) (hbody : Symbol.isSingle body = true) :
    ∃ t, ts = [t] ∧ t.span = spanOf w := by
  induction h with
  | nil | kept | dropped | absent | present | done | again => cases hbody
  | @named _ _ rest l _ _ _ hd _ =>
    cases rest with
    | cons => cases hbody
    | nil => cases hd; exact ⟨_, rfl, rfl⟩
  | @rule _ n p rest v _ us _ hp _ hd ih _ =>
    cases rest with
    | cons => cases hbody
    | nil =>
      cases hd
      rw [List.append_nil, List.append_nil]
      unfold Nonterminal.shape
      split
      · exact ⟨_, rfl, rfl⟩
      · exact ⟨_, rfl, rfl⟩
      · rename_i hs; simp [Symbol.isSingle, Nonterminal.isInlined, hs] at hbody
      · rename_i hr hs
        obtain ⟨t, rfl, ht⟩ := ih (productions_single hs p hp hr)
        exact ⟨t, rfl, ht⟩

/-- A rule that is not inlined leaves one tree, which spans its tokens. -/
theorem Nonterminal.Reads.single {n : Nonterminal} {w : List Lexeme} {ts : List Tree}
    (h : n.Reads w ts) (hn : n.isInlined = false) : ∃ t, ts = [t] ∧ t.span = spanOf w := by
  obtain ⟨p, hp, us, hd, rfl⟩ := h
  have hrule : Derives false [.rule n] (w ++ []) (n.shape p w us ++ []) := .rule hp hd .nil
  simpa using hrule.single (by simp [Symbol.isSingle, hn])

/-! ## Nodes -/

namespace Nonterminal

/-- The rule of the node that a production leaves, if it leaves one. -/
def nodeOf? (n : Nonterminal) (p : Production) : Option Rule :=
  match p.renamed, n.shaping with
  | some rule, _ => some rule
  | none, .node rule _ => some rule
  | none, _ => none

variable {n : Nonterminal} {p : Production} {w : List Lexeme} {ts : List Tree}

theorem shape_of_some {rule : Rule} (hr : n.nodeOf? p = some rule) :
    n.shape p w ts = [.node rule (spanOf w) ts] := by
  unfold nodeOf? at hr
  unfold shape
  split at hr
  · rename_i hrenamed
    cases hr
    rw [hrenamed]
  · rename_i hrenamed hs
    cases hr
    rw [hrenamed, hs]
  · cases hr

/-- A production that leaves no node of its own has a single part. -/
theorem isSingle_of_none (n : Nonterminal) : ∀ p ∈ n.productions, n.nodeOf? p = none →
    Symbol.isSingle p.body = true := by
  cases n <;> decide

/-- A production that leaves no node gives way to its part. -/
theorem shape_of_none (hp : p ∈ n.productions) (hr : n.nodeOf? p = none)
    (hd : Derives n.keeps p.body w ts) : n.shape p w ts = ts := by
  obtain ⟨t, rfl, -⟩ := hd.single (n.isSingle_of_none p hp hr)
  unfold nodeOf? at hr
  unfold shape
  split at hr
  · cases hr
  · cases hr
  · rename_i hrenamed hnode
    rw [hrenamed]
    cases hs : n.shaping with
    | node rule keeps => exact absurd hs (hnode rule keeps)
    | single | inlined => rfl

end Nonterminal

end Criterion

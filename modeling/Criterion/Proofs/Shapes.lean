import Criterion.Proofs.Derivation
import Criterion.Proofs.Spelling

/-!
# What fits where

Each rule makes an artifact of a known kind, and each production leaves artifacts of known kinds to
its rule. The artifacts that a rule unpacks by position are the ones that its productions leave.

* `Terminal.Stands`, `Nonterminal.Stands`: the kind of artifact that a terminal and a rule stand for.
* `assemble_token`: the artifact of a token; it fails for an integer with too many digits only.
* `Fills`: the artifacts that a derivation leaves to a rule.
* `Nonterminal.takes`: **every rule can take what its productions leave it**, where it leaves a node.
* `Nonterminal.gives`: where it leaves none, its production leaves what the rule stands for.
-/

namespace Criterion

/-! ## Tokens -/

/-- The kind of artifact that a terminal stands for. -/
@[simp]
def Terminal.Stands (t : Terminal) (a : Artifact) : Prop :=
  match t with
  | .number => ∃ n, a = .expr (.number n)
  | .string => ∃ s, a = .expr (.text s)
  | .keyword .trueWord | .keyword .falseWord => ∃ b, a = .expr (.boolean b)
  | .keyword .nullWord => a = .expr .null
  | .keyword .everyWord | .keyword .someWord => ∃ q, a = .quantifier q
  | .keyword .inWord => a = .text "in"
  | .keyword .betweenWord => a = .text "between"
  | .keyword .notWord => a = .text "not"
  | .plus | .minus | .star | .slash | .power => ∃ op, a = .arithmetic op
  | .equal | .differs | .atMost | .atLeast | .less | .greater => ∃ op, a = .relation op
  | _ => ∃ s, a = .text s

/-- An integer with more digits than can be read. -/
def Token.TooLong (k : Token) : Prop :=
  k.kind = .number ∧ '.' ∉ k.text.toList ∧ digitLimit < k.text.length

instance (k : Token) : Decidable k.TooLong := inferInstanceAs (Decidable (_ ∧ _ ∧ _))

variable {l : Lexeme}

theorem arithmetic_of_spelled (h : l.Spelled)
    (hl : l.kind ∈ [Terminal.plus, .minus, .star, .slash, .power]) :
    ∃ op, Arithmetic.ofText? l.text = some op := by
  have htable : ∀ x ∈ Lexer.symbols, x.1 ∈ [Terminal.plus, .minus, .star, .slash, .power] →
      (Arithmetic.ofText? x.2).isSome = true := by decide
  have hsub : ∀ t ∈ [Terminal.plus, .minus, .star, .slash, .power], t ∈ Lexer.symbols.map (·.1) := by
    decide
  exact Option.isSome_iff_exists.1 (htable _ (h.symbol (hsub _ hl)) hl)

theorem relation_of_spelled (h : l.Spelled)
    (hl : l.kind ∈ [Terminal.equal, .differs, .atMost, .atLeast, .less, .greater]) :
    ∃ op, Relation.ofText? l.text = some op := by
  have htable : ∀ x ∈ Lexer.symbols,
      x.1 ∈ [Terminal.equal, .differs, .atMost, .atLeast, .less, .greater] →
        (Relation.ofText? x.2).isSome = true := by decide
  have hsub : ∀ t ∈ [Terminal.equal, .differs, .atMost, .atLeast, .less, .greater],
      t ∈ Lexer.symbols.map (·.1) := by decide
  exact Option.isSome_iff_exists.1 (htable _ (h.symbol (hsub _ hl)) hl)

theorem spelling_of_word {k : Keyword} (h : l.Spelled) (hl : l.kind = .keyword k) {s : String}
    (hs : ∀ x ∈ Lexer.reserved true, x.1 = k → x.2 = s) : l.text = s := hs _ (h.word k hl) rfl

/-- The artifact of a number, unless it has too many digits. -/
theorem assemble_number (h : l.Spelled) (hl : l.kind = .number) :
    (l.token.TooLong → l.token.assemble = .error .tooManyDigits) ∧
      (¬ l.token.TooLong → ∃ a, l.token.assemble = .ok a ∧ l.kind.Stands a) := by
  have hread := numberLiteral_eq (h.number hl)
  rw [String.ofList_toList] at hread
  have hlong : l.token.TooLong ↔ '.' ∉ l.text.toList ∧ digitLimit < l.text.toList.length := by
    simp only [Token.TooLong, Lexeme.token, hl, true_and, String.length_toList]
  have hassemble : l.token.assemble = (numberLiteral l.text).map .expr := by
    unfold Token.assemble
    simp only [Lexeme.token, hl]
  rw [hassemble, hlong, hl]
  split at hread
  · rename_i hmany
    refine ⟨fun _ => ?_, fun hno => absurd hmany hno⟩
    rw [hread]
    rfl
  · rename_i hfew
    obtain ⟨n, hn⟩ := hread
    refine ⟨fun hmany => absurd hmany hfew, fun _ => ?_⟩
    rw [hn]
    exact ⟨_, rfl, n, rfl⟩

/-- **The artifact of a token of a source.** -/
theorem assemble_token (h : l.Spelled) :
    (l.token.TooLong → l.token.assemble = .error .tooManyDigits) ∧
      (¬ l.token.TooLong → ∃ a, l.token.assemble = .ok a ∧ l.kind.Stands a) := by
  by_cases hnumber : l.kind = .number
  · exact assemble_number h hnumber
  refine ⟨fun hlong => absurd hlong.1 hnumber, fun _ => ?_⟩
  obtain ⟨kind, text, start, stop⟩ := l
  cases kind with
  | number => exact absurd rfl hnumber
  | plus | minus | star | slash | power =>
    obtain ⟨op, hop⟩ := arithmetic_of_spelled h (by simp)
    refine ⟨.arithmetic op, ?_, op, rfl⟩
    simp only [Token.assemble, Lexeme.token, hop]
  | equal | differs | atMost | atLeast | less | greater =>
    obtain ⟨op, hop⟩ := relation_of_spelled h (by simp)
    refine ⟨.relation op, ?_, op, rfl⟩
    simp only [Token.assemble, Lexeme.token, hop]
  | keyword k =>
    cases k with
    | inWord | betweenWord | notWord =>
      exact ⟨_, rfl, congrArg Artifact.text (spelling_of_word h rfl (by decide))⟩
    | nullWord => exact ⟨_, rfl, rfl⟩
    | _ => exact ⟨_, rfl, _, rfl⟩
  | _ => exact ⟨_, rfl, _, rfl⟩

/-- An artifact without parts, such as a token stands for. -/
def Artifact.IsFlat : Artifact → Prop
  | .expr .null | .expr (.boolean _) | .expr (.number _) | .expr (.text _) => True
  | .text _ | .arithmetic _ | .relation _ | .quantifier _ => True
  | _ => False

/-- What a token stands for has no parts. -/
theorem flat_of_token {k : Token} {a : Artifact} (h : k.assemble = .ok a) : a.IsFlat := by
  unfold Token.assemble at h
  split at h
  · cases hliteral : numberLiteral k.text with
    | error e =>
      rw [hliteral] at h
      cases h
    | ok e =>
      rw [hliteral] at h
      cases h
      unfold numberLiteral at hliteral
      dsimp only at hliteral
      split at hliteral <;> cases hliteral
      trivial
  all_goals first
    | cases h; trivial
    | split at h <;> cases h; trivial

/-! ## Parts of rules -/

/-- The kind of artifact that a rule stands for. -/
@[simp]
def Nonterminal.Stands (n : Nonterminal) (a : Artifact) : Prop :=
  match n with
  | .expressions => ∃ es, a = .expr (.list es)
  | .unaryTests => ∃ ts, a = .tests ts
  | .compareOp => ∃ op, a = .relation op
  | .inExpressions => ∃ bs, a = .bindings bs
  | .inExpression => ∃ name domain, a = .binding name domain
  | .type | .intervalStart | .intervalEnd => ∃ s, a = .text s
  | .parameters | .positionalParameters => ∃ es, a = .arguments es
  | .contextEntry => ∃ key value, a = .entry key value
  | .key => ∃ s, a = .text s ∨ a = .expr (.text s)
  | _ => ∃ e, a = .expr e

/-- The artifacts that a derivation from a body leaves. -/
inductive Fills : Bool → List Symbol → List Artifact → Prop where
  | nil {keeps : Bool} : Fills keeps [] []
  | named {keeps : Bool} {kinds : List Terminal} {rest : List Symbol} {t : Terminal} {a : Artifact}
    {as : List Artifact} : t ∈ kinds → t.Stands a → Fills keeps rest as →
      Fills keeps (.named kinds :: rest) (a :: as)
  | kept {kinds : List Terminal} {rest : List Symbol} {t : Terminal} {a : Artifact}
    {as : List Artifact} : t ∈ kinds → t.Stands a → Fills true rest as →
      Fills true (.text kinds :: rest) (a :: as)
  | dropped {kinds : List Terminal} {rest : List Symbol} {as : List Artifact} :
    Fills false rest as → Fills false (.text kinds :: rest) as
  | rule {keeps : Bool} {n : Nonterminal} {rest : List Symbol} {a : Artifact} {as : List Artifact} :
    n.Stands a → Fills keeps rest as → Fills keeps (.rule n :: rest) (a :: as)
  | absent {keeps : Bool} {body rest : List Symbol} {as : List Artifact} :
    Fills keeps rest as → Fills keeps (.optional body :: rest) as
  | present {keeps : Bool} {body rest : List Symbol} {as : List Artifact} :
    Fills keeps (body ++ rest) as → Fills keeps (.optional body :: rest) as
  | done {keeps : Bool} {body rest : List Symbol} {as : List Artifact} :
    Fills keeps rest as → Fills keeps (.many body :: rest) as
  | again {keeps : Bool} {body rest : List Symbol} {as : List Artifact} :
    Fills keeps (body ++ .many body :: rest) as → Fills keeps (.many body :: rest) as

section Fills

variable {keeps : Bool} {kinds : List Terminal} {n : Nonterminal} {a b body rest : List Symbol}
  {as : List Artifact}

@[simp] theorem fills_nil : Fills keeps [] as ↔ as = [] :=
  ⟨fun h => by cases h; rfl, fun h => h ▸ .nil⟩

@[simp] theorem fills_named : Fills keeps (.named kinds :: rest) as ↔
    ∃ a bs, as = a :: bs ∧ (∃ t ∈ kinds, t.Stands a) ∧ Fills keeps rest bs := by
  constructor
  · intro h
    cases h with
    | named ht ha h => exact ⟨_, _, rfl, ⟨_, ht, ha⟩, h⟩
  · rintro ⟨a, bs, rfl, ⟨t, ht, ha⟩, h⟩
    exact .named ht ha h

@[simp] theorem fills_kept : Fills true (.text kinds :: rest) as ↔
    ∃ a bs, as = a :: bs ∧ (∃ t ∈ kinds, t.Stands a) ∧ Fills true rest bs := by
  constructor
  · intro h
    cases h with
    | kept ht ha h => exact ⟨_, _, rfl, ⟨_, ht, ha⟩, h⟩
  · rintro ⟨a, bs, rfl, ⟨t, ht, ha⟩, h⟩
    exact .kept ht ha h

@[simp] theorem fills_dropped : Fills false (.text kinds :: rest) as ↔ Fills false rest as :=
  ⟨fun h => by cases h; assumption, .dropped⟩

@[simp] theorem fills_rule : Fills keeps (.rule n :: rest) as ↔
    ∃ a bs, as = a :: bs ∧ n.Stands a ∧ Fills keeps rest bs := by
  constructor
  · intro h
    cases h with
    | rule ha h => exact ⟨_, _, rfl, ha, h⟩
  · rintro ⟨a, bs, rfl, ha, h⟩
    exact .rule ha h

@[simp] theorem fills_optional : Fills keeps (.optional body :: rest) as ↔
    Fills keeps rest as ∨ Fills keeps (body ++ rest) as := by
  constructor
  · intro h
    cases h with
    | absent h => exact .inl h
    | present h => exact .inr h
  · rintro (h | h)
    · exact .absent h
    · exact .present h

theorem Fills.split (h : Fills keeps (a ++ b) as) :
    ∃ bs cs, as = bs ++ cs ∧ Fills keeps a bs ∧ Fills keeps b cs := by
  -- in each case the first part is used up, or its first symbol is the one that is filled
  generalize hab : a ++ b = body at h
  induction h generalizing a with
  | nil =>
    obtain ⟨rfl, rfl⟩ := List.append_eq_nil_iff.1 hab
    exact ⟨[], [], rfl, .nil, .nil⟩
  | named ht ha h ih =>
    rcases List.append_eq_cons_iff.1 hab with ⟨rfl, rfl⟩ | ⟨a, rfl, rfl⟩
    · exact ⟨[], _, rfl, .nil, .named ht ha h⟩
    · obtain ⟨bs, cs, rfl, hbs, hcs⟩ := ih rfl
      exact ⟨_ :: bs, cs, rfl, .named ht ha hbs, hcs⟩
  | kept ht ha h ih =>
    rcases List.append_eq_cons_iff.1 hab with ⟨rfl, rfl⟩ | ⟨a, rfl, rfl⟩
    · exact ⟨[], _, rfl, .nil, .kept ht ha h⟩
    · obtain ⟨bs, cs, rfl, hbs, hcs⟩ := ih rfl
      exact ⟨_ :: bs, cs, rfl, .kept ht ha hbs, hcs⟩
  | dropped h ih =>
    rcases List.append_eq_cons_iff.1 hab with ⟨rfl, rfl⟩ | ⟨a, rfl, rfl⟩
    · exact ⟨[], _, rfl, .nil, .dropped h⟩
    · obtain ⟨bs, cs, rfl, hbs, hcs⟩ := ih rfl
      exact ⟨bs, cs, rfl, .dropped hbs, hcs⟩
  | rule ha h ih =>
    rcases List.append_eq_cons_iff.1 hab with ⟨rfl, rfl⟩ | ⟨a, rfl, rfl⟩
    · exact ⟨[], _, rfl, .nil, .rule ha h⟩
    · obtain ⟨bs, cs, rfl, hbs, hcs⟩ := ih rfl
      exact ⟨_ :: bs, cs, rfl, .rule ha hbs, hcs⟩
  | absent h ih =>
    rcases List.append_eq_cons_iff.1 hab with ⟨rfl, rfl⟩ | ⟨a, rfl, rfl⟩
    · exact ⟨[], _, rfl, .nil, .absent h⟩
    · obtain ⟨bs, cs, rfl, hbs, hcs⟩ := ih rfl
      exact ⟨bs, cs, rfl, .absent hbs, hcs⟩
  | @present _ body _ _ h ih =>
    rcases List.append_eq_cons_iff.1 hab with ⟨rfl, rfl⟩ | ⟨a, rfl, rfl⟩
    · exact ⟨[], _, rfl, .nil, .present h⟩
    · obtain ⟨bs, cs, rfl, hbs, hcs⟩ := ih (List.append_assoc body a b)
      exact ⟨bs, cs, rfl, .present hbs, hcs⟩
  | done h ih =>
    rcases List.append_eq_cons_iff.1 hab with ⟨rfl, rfl⟩ | ⟨a, rfl, rfl⟩
    · exact ⟨[], _, rfl, .nil, .done h⟩
    · obtain ⟨bs, cs, rfl, hbs, hcs⟩ := ih rfl
      exact ⟨bs, cs, rfl, .done hbs, hcs⟩
  | @again _ body _ _ h ih =>
    rcases List.append_eq_cons_iff.1 hab with ⟨rfl, rfl⟩ | ⟨a, rfl, rfl⟩
    · exact ⟨[], _, rfl, .nil, .again h⟩
    · obtain ⟨bs, cs, rfl, hbs, hcs⟩ := ih (List.append_assoc body (.many body :: a) b)
      exact ⟨bs, cs, rfl, .again hbs, hcs⟩

/-- Artifacts of a part that comes any number of times. -/
theorem Fills.many {P : Artifact → Prop}
    (hbody : ∀ {bs}, Fills keeps body bs → ∃ a, bs = [a] ∧ P a)
    (h : Fills keeps (.many body :: rest) as) :
    ∃ bs cs, as = bs ++ cs ∧ (∀ a ∈ bs, P a) ∧ Fills keeps rest cs := by
  -- each repetition takes one artifact, so the induction is on their number
  induction hk : as.length using Nat.strong_induction_on generalizing as with
  | _ k ih =>
    cases h with
    | done h => exact ⟨[], as, rfl, fun _ ha => absurd ha List.not_mem_nil, h⟩
    | again h =>
      obtain ⟨bs, cs, rfl, hbs, hcs⟩ := h.split
      obtain ⟨a, rfl, ha⟩ := hbody hbs
      obtain ⟨ds, es, rfl, hds, hes⟩ := ih cs.length (by rw [← hk]; simp) hcs rfl
      exact ⟨a :: ds, es, rfl, List.forall_mem_cons.2 ⟨ha, hds⟩, hes⟩

/-- Artifacts of one or more of a rule, with commas between them. -/
theorem Fills.commas (h : Fills false (Nonterminal.commas n ++ rest) as) :
    ∃ bs cs, as = bs ++ cs ∧ (∀ a ∈ bs, n.Stands a) ∧ Fills false rest cs := by
  obtain ⟨a, as, rfl, ha, h⟩ := fills_rule.1 h
  have hbody : ∀ {bs}, Fills false [Nonterminal.word .comma, .rule n] bs →
      ∃ a, bs = [a] ∧ n.Stands a := by
    intro bs hbs
    obtain ⟨a, _, rfl, ha, hnil⟩ := fills_rule.1 (fills_dropped.1 hbs)
    exact ⟨a, by rw [fills_nil.1 hnil], ha⟩
  obtain ⟨bs, cs, rfl, hbs, hcs⟩ := h.many hbody
  exact ⟨a :: bs, cs, rfl, List.forall_mem_cons.2 ⟨ha, hbs⟩, hcs⟩

theorem Fills.commas_last (h : Fills false (Nonterminal.commas n) as) : ∀ a ∈ as, n.Stands a := by
  rw [← List.append_nil (Nonterminal.commas n)] at h
  obtain ⟨bs, cs, rfl, hbs, hcs⟩ := h.commas
  rwa [fills_nil.1 hcs, List.append_nil]

/-- Artifacts of a rule with commas between them and brackets around them, or none. -/
theorem Fills.bracketed {opening closing : List Terminal}
    (h : Fills false [.text opening, .optional (Nonterminal.commas n), .text closing] as) :
    ∀ a ∈ as, n.Stands a := by
  rcases fills_optional.1 (fills_dropped.1 h) with h | h
  · rw [fills_nil.1 (fills_dropped.1 h)]
    exact fun a ha => absurd ha List.not_mem_nil
  · obtain ⟨bs, cs, rfl, hbs, hcs⟩ := h.commas
    rwa [fills_nil.1 (fills_dropped.1 hcs), List.append_nil]

end Fills

theorem mapM_isSome {α : Type} {f : Artifact → Option α} {as : List Artifact}
    (h : ∀ a ∈ as, ∃ b, f a = some b) : ∃ bs, as.mapM f = some bs := by
  induction as with
  | nil => exact ⟨[], rfl⟩
  | cons a as ih =>
    obtain ⟨⟨b, hb⟩, has⟩ := List.forall_mem_cons.1 h
    obtain ⟨bs, hbs⟩ := ih has
    exact ⟨b :: bs, by simp [hb, hbs]⟩

/-! ## Rules -/

/-- Whatever production a node of the rule comes from, it can take the artifacts that the production
leaves it, and makes an artifact of the kind that the rule stands for. -/
def Nonterminal.Takes (n : Nonterminal) : Prop :=
  ∀ p ∈ n.productions, ∀ rule, n.nodeOf? p = some rule → ∀ as, Fills n.keeps p.body as →
    ∀ site text, ∃ a, rule.assemble site text as = .ok a ∧ n.Stands a

namespace Nonterminal

/-- A rule that leaves no node of its own. -/
theorem takes_of_none {n : Nonterminal} (h : ∀ p ∈ n.productions, n.nodeOf? p = none) :
    n.Takes := by
  intro p hp rule hr
  rw [h p hp] at hr
  cases hr

/-- A rule of one production. -/
theorem takes_of_production {n : Nonterminal} {p : Production} {rule : Rule}
    (hp : n.productions = [p]) (hr : n.nodeOf? p = some rule)
    (h : ∀ as, Fills n.keeps p.body as →
      ∀ site text, ∃ a, rule.assemble site text as = .ok a ∧ n.Stands a) : n.Takes := by
  intro q hq rule' hr'
  rw [hp, List.mem_singleton] at hq
  rw [hq, hr, Option.some.injEq] at hr'
  rw [hq, ← hr']
  exact h

/-- A rule with a production that gives way to its part and one that leaves a node. -/
theorem takes_of_second {n : Nonterminal} {p q : Production} {rule : Rule}
    (hp : n.productions = [p, q]) (hnone : n.nodeOf? p = none) (hr : n.nodeOf? q = some rule)
    (h : ∀ as, Fills n.keeps q.body as →
      ∀ site text, ∃ a, rule.assemble site text as = .ok a ∧ n.Stands a) : n.Takes := by
  intro p' hp' rule' hr'
  rw [hp, List.mem_pair] at hp'
  rcases hp' with rfl | rfl
  · rw [hnone] at hr'
    cases hr'
  · rw [hr, Option.some.injEq] at hr'
    rw [← hr']
    exact h

/-- A rule of the language makes what it can make of its parts. -/
theorem assemble_of_artifact {rule : Rule} {site : ℕ} {text : String} {as : List Artifact} {a : Artifact}
    (h : rule.artifact? site text as = some a) : rule.assemble site text as = .ok a := by
  unfold Rule.assemble
  split
  · cases h
  · rw [h]

/-- What a rule makes of some parts, it can make of them. -/
theorem artifact_of_assemble {rule : Rule} {site : ℕ} {text : String} {as : List Artifact} {a : Artifact}
    (h : rule.assemble site text as = .ok a) : rule.artifact? site text as = some a := by
  unfold Rule.assemble at h
  split at h
  · cases h
  · split at h
    · rename_i hartifact
      cases h
      exact hartifact
    · cases h

/-! ### Parts with commas between them -/

theorem operands_isSome {as : List Artifact} (h : ∀ a ∈ as, ∃ e, a = .expr e) :
    ∃ es, as.mapM Artifact.operand? = some es := by
  refine mapM_isSome fun a ha => ?_
  obtain ⟨e, rfl⟩ := h a ha
  exact ⟨e, rfl⟩

/-- Three rules make a list of their parts. -/
theorem assemble_list {rule : Rule} (hrule : rule ∈ [Rule.expressions, .positiveUnaryTests, .list])
    {site : ℕ} {text : String} {as : List Artifact} {es : List Expr}
    (hes : as.mapM Artifact.operand? = some es) :
    rule.assemble site text as = .ok (.expr (.list es)) := by
  have hmade : (do return Expr.list (← as.mapM Artifact.operand?)).map Artifact.expr =
      some (.expr (.list es)) := by
    rw [hes]
    rfl
  simp only [List.mem_cons, List.not_mem_nil, or_false] at hrule
  rcases hrule with rfl | rfl | rfl <;> exact assemble_of_artifact hmade

theorem expressions_takes : expressions.Takes := by
  refine takes_of_production rfl rfl fun as h site text => ?_
  obtain ⟨es, hes⟩ := operands_isSome h.commas_last
  exact ⟨.expr (.list es), assemble_list (by decide) hes, es, rfl⟩

theorem positiveUnaryTests_takes : positiveUnaryTests.Takes := by
  refine takes_of_production rfl rfl fun as h site text => ?_
  obtain ⟨es, hes⟩ := operands_isSome h.commas_last
  exact ⟨.expr (.list es), assemble_list (by decide) hes, _, rfl⟩

theorem positionalParameters_takes : positionalParameters.Takes := by
  refine takes_of_production rfl rfl fun as h site text => ?_
  obtain ⟨es, hes⟩ := operands_isSome h.commas_last
  refine ⟨.arguments es, assemble_of_artifact ?_, es, rfl⟩
  change (as.mapM Artifact.operand?).map Artifact.arguments = _
  rw [hes]
  rfl

theorem list_takes : list.Takes := by
  refine takes_of_production rfl rfl fun as h site text => ?_
  obtain ⟨es, hes⟩ := operands_isSome h.bracketed
  exact ⟨.expr (.list es), assemble_list (by decide) hes, _, rfl⟩

theorem context_takes : context.Takes := by
  refine takes_of_production rfl rfl fun as h site text => ?_
  have hentries : ∀ a ∈ as, ∃ b, a.entry? = some b := by
    intro a ha
    obtain ⟨key, value, rfl⟩ := h.bracketed a ha
    exact ⟨_, rfl⟩
  obtain ⟨es, hes⟩ := mapM_isSome hentries
  refine ⟨.expr (.context es), assemble_of_artifact ?_, _, rfl⟩
  change (do return Expr.context (← as.mapM Artifact.entry?)).map Artifact.expr = _
  rw [hes]
  rfl

theorem inExpressions_takes : inExpressions.Takes := by
  refine takes_of_production rfl rfl fun as h site text => ?_
  have hbindings : ∀ a ∈ as, ∃ b, a.binding? = some b := by
    intro a ha
    obtain ⟨name, domain, rfl⟩ := h.commas_last a ha
    exact ⟨_, rfl⟩
  obtain ⟨bs, hbs⟩ := mapM_isSome hbindings
  refine ⟨.bindings bs, assemble_of_artifact ?_, bs, rfl⟩
  change (as.mapM Artifact.binding?).map Artifact.bindings = _
  rw [hbs]
  rfl

/-! ### Names -/

/-- The segments of a name are texts. -/
theorem texts_of_segments {as : List Artifact}
    (h : Fills false [.named [.identifier], .many [word .dot, .named [.identifier]]] as) :
    ∀ a ∈ as, ∃ s, a = .text s := by
  obtain ⟨a, bs, rfl, ha, h⟩ := fills_named.1 h
  have hpart : ∀ {bs}, Fills false [word .dot, .named [.identifier]] bs →
      ∃ a, bs = [a] ∧ ∃ s, a = .text s := by
    intro bs hbs
    simpa [word] using hbs
  obtain ⟨cs, ds, rfl, hcs, hds⟩ := h.many hpart
  rw [fills_nil.1 hds, List.append_nil]
  exact List.forall_mem_cons.2 ⟨by simpa using ha, hcs⟩

theorem qualifiedName_takes : qualifiedName.Takes := by
  refine takes_of_production rfl rfl fun as h site text => ?_
  have htexts : ∀ a ∈ as, ∃ s, a.text? = some s := by
    intro a ha
    obtain ⟨s, rfl⟩ := texts_of_segments h a ha
    exact ⟨s, rfl⟩
  obtain ⟨names, hnames⟩ := mapM_isSome htexts
  refine ⟨.expr (.name (".".intercalate names)), assemble_of_artifact ?_, _, rfl⟩
  change (do return Expr.name (".".intercalate (← as.mapM Artifact.text?))).map Artifact.expr = _
  rw [hnames]
  rfl

/-! ### Rules of several productions -/

/-- A comparison keeps its keywords and parentheses, which tell its four forms apart. -/
theorem comparison_takes : comparison.Takes := by
  intro p hp rule hr as h site text
  have hkeeps : comparison.keeps = true := rfl
  rw [hkeeps] at h
  simp only [productions, List.mem_cons, List.not_mem_nil, or_false] at hp
  obtain rfl | rfl | rfl | rfl := hp
  all_goals
    cases hr
    simp [plain, word, wordOf] at h
  · obtain ⟨a, op, b, rfl⟩ := h
    exact ⟨_, rfl, _, rfl⟩
  · obtain ⟨a, low, x, high, rfl⟩ := h
    exact ⟨_, rfl, _, rfl⟩
  · obtain ⟨a, b, rfl⟩ := h
    exact ⟨_, rfl, _, rfl⟩
  · obtain ⟨a, x, b, y, rfl⟩ := h
    exact ⟨_, rfl, _, rfl⟩

theorem nonNamePostfix_takes : nonNamePostfix.Takes := by
  intro p hp rule hr as h site text
  have hkeeps : nonNamePostfix.keeps = false := rfl
  rw [hkeeps] at h
  simp only [productions, List.mem_cons, List.not_mem_nil, or_false] at hp
  obtain rfl | rfl | rfl | rfl := hp
  · cases hr
  all_goals
    cases hr
    simp [word] at h
  · obtain ⟨a, b, rfl⟩ := h
    exact ⟨_, rfl, _, rfl⟩
  · obtain ⟨a, es, rfl⟩ := h
    exact ⟨_, rfl, _, rfl⟩
  · obtain ⟨a, field, rfl⟩ := h
    exact ⟨_, rfl, _, rfl⟩

/-- Tests keep the keyword and the parentheses of a negation. -/
theorem unaryTests_takes : unaryTests.Takes := by
  intro p hp rule hr as h site text
  have hkeeps : unaryTests.keeps = true := rfl
  rw [hkeeps] at h
  simp only [productions, List.mem_cons, List.not_mem_nil, or_false] at hp
  obtain rfl | rfl | rfl := hp
  all_goals
    cases hr
    simp [plain, word, wordOf] at h
  · obtain ⟨a, rfl⟩ := h
    exact ⟨_, rfl, _, rfl⟩
  · obtain ⟨x, a, y, rfl⟩ := h
    exact ⟨_, rfl, _, rfl⟩
  · obtain ⟨a, rfl⟩ := h
    exact ⟨_, rfl, _, rfl⟩

/-! ### All rules -/

/-- **Every rule can take the artifacts that its productions leave it.** -/
theorem takes (n : Nonterminal) : n.Takes := by
  cases n
  case expressions => exact expressions_takes
  case positiveUnaryTests => exact positiveUnaryTests_takes
  case positionalParameters => exact positionalParameters_takes
  case list => exact list_takes
  case context => exact context_takes
  case inExpressions => exact inExpressions_takes
  case qualifiedName => exact qualifiedName_takes
  case comparison => exact comparison_takes
  case nonNamePostfix => exact nonNamePostfix_takes
  case unaryTests => exact unaryTests_takes
  case positiveUnaryTest | endpoint | expression | compareTest | inTest | compareOp | postfixed
      | primary | literal =>
    exact takes_of_none (by decide)
  case orTest | andTest | instanceTest =>
    refine takes_of_second rfl rfl rfl fun as h site text => ?_
    simp [keeps, shaping, wordOf] at h
    obtain ⟨a, b, rfl⟩ := h
    exact ⟨_, rfl, _, rfl⟩
  case sum | product | power =>
    refine takes_of_second rfl rfl rfl fun as h site text => ?_
    simp [keeps, shaping] at h
    obtain ⟨a, op, b, rfl⟩ := h
    exact ⟨_, rfl, _, rfl⟩
  case unary =>
    refine takes_of_second rfl rfl rfl fun as h site text => ?_
    simp [keeps, shaping] at h
    obtain ⟨op, a, rfl⟩ := h
    exact ⟨_, rfl, _, rfl⟩
  -- what is left has one production each
  all_goals
    refine takes_of_production rfl rfl fun as h site text => ?_
    simp [keeps, shaping, plain, word, wordOf] at h
  case wildcard | specialFunctionName | inputValue | type | intervalStart | intervalEnd =>
    exact ⟨_, rfl, _, rfl⟩
  case simplePositiveUnaryTest | forExpression | dateTimeConstructor =>
    obtain ⟨a, b, rfl⟩ := h
    exact ⟨_, rfl, _, rfl⟩
  case inExpression =>
    obtain ⟨name, domain, rfl⟩ := h
    exact ⟨_, rfl, name, domain, rfl⟩
  case quantifiedExpression =>
    obtain ⟨q, bs, a, rfl⟩ := h
    exact ⟨_, rfl, _, rfl⟩
  case interval =>
    obtain ⟨opening, a, b, closing, rfl⟩ := h
    exact ⟨_, rfl, _, rfl⟩
  case ifExpression =>
    obtain ⟨_, ⟨a, b, rfl⟩, rfl | ⟨c, rfl⟩⟩ := h
    · exact ⟨_, rfl, _, rfl⟩
    · exact ⟨_, rfl, _, rfl⟩
  case iterationContext =>
    obtain ⟨_, ⟨a, rfl⟩, rfl | ⟨b, rfl⟩⟩ := h
    · exact ⟨_, rfl, _, rfl⟩
    · exact ⟨_, rfl, _, rfl⟩
  case parameters =>
    obtain rfl | ⟨es, rfl⟩ := h
    · exact ⟨_, rfl, _, rfl⟩
    · exact ⟨_, rfl, _, rfl⟩
  case contextEntry =>
    obtain ⟨_, ⟨value, rfl⟩, name, rfl | rfl⟩ := h
    · exact ⟨_, rfl, _, _, rfl⟩
    · exact ⟨_, rfl, _, _, rfl⟩
  case key =>
    obtain ⟨_, rfl, ⟨name, rfl⟩ | ⟨name, rfl⟩⟩ := h
    · exact ⟨_, rfl, name, .inl rfl⟩
    · exact ⟨_, rfl, name, .inr rfl⟩
  case parenthesizedExpression =>
    obtain ⟨e, rfl⟩ := h
    exact ⟨_, rfl, e, rfl⟩

/-- No production leaves a node of several readings. -/
theorem node_ne_ambiguous (n : Nonterminal) : ∀ p ∈ n.productions,
    n.nodeOf? p ≠ some .ambiguous := by
  cases n <;> decide

/-- A production that leaves no node of its own leaves the artifact that its rule stands for. -/
theorem gives {n : Nonterminal} {p : Production} {as : List Artifact} (hp : p ∈ n.productions)
    (hr : n.nodeOf? p = none) (h : Fills n.keeps p.body as) : ∃ a, as = [a] ∧ n.Stands a := by
  cases n
  all_goals
    simp only [productions, List.mem_cons, List.not_mem_nil, or_false] at hp
    rcases hp with rfl | rfl | rfl | rfl | rfl | rfl | rfl | rfl
  case literal =>
    obtain ⟨a, bs, rfl, ha, h⟩ := fills_named.1 h
    obtain rfl := fills_nil.1 h
    simp at ha
    obtain ⟨n, rfl⟩ | ⟨s, rfl⟩ | (rfl | rfl) | rfl := ha
    all_goals exact ⟨_, rfl, _, rfl⟩
  all_goals first
    | exact absurd hr (Option.some_ne_none _)
    | simpa [keeps, shaping, plain] using h

end Nonterminal

end Criterion

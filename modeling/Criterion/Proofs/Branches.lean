import Criterion.Proofs.Inclusion
import Criterion.Proofs.Longest
import Criterion.Proofs.Makings

/-!
# The choice that an else belongs to

A choice may end with its first branch or go on with `else`, so a text with one choice at the end of another has
two readings. The grammar allows both. The one is taken in which the outer choice has the `else`: readings with one
go before readings without.

* `Tree.Ends`: what stands at the right edge of a tree.
* `exists_else_split`: a tree with a complete choice at its right edge also derives without its last branch.
* `Readings.mem_union`: the second of two ways is taken only where the first one has no reading.
* `Tree.Settled`: no incomplete choice has a complete one at the right edge of its branch.
* `Grammar.makes_expression`, `settled_of_parse`: such are the trees of all sources.
* `else_belongs_to_outermost`: **a choice without an `else` never has one with it at the end of its branch.**
* `else_not_of_nearest`: in `if a then if b then c else d` the inner choice has no `else`.
-/

namespace Criterion

open Reader

/-! ## The right edge of a tree -/

/-- The rules that end with an expression. -/
def Rule.trailing : List Rule := [.forExpression, .quantifiedExpression, .ifExpression]

/-- What stands at the right edge of a tree: the tree itself, and what stands at the right edge of the last part
of a loop, a quantified expression or a choice. -/
inductive Tree.Ends (u : Tree) : Tree → Prop where
  | self : Ends u u
  | last {rule : Rule} {span : Option Span} {ts : List Tree} {t : Tree} :
    rule ∈ Rule.trailing → Ends u t → Ends u (.node rule span (ts ++ [t]))

/-- A choice with an `else`. -/
inductive Tree.Complete : Tree → Prop where
  | intro (span : Option Span) (condition yes no : Tree) :
    Complete (.node .ifExpression span [condition, yes, no])

section Derivations

variable {u v w : List Lexeme} {children ts : List Tree} {t : Tree} {rule : Rule} {span : Option Span}

/-- The rules that end with an expression leave the nodes of their names, and no other rules do. -/
theorem nonterminal_of_trailing (n : Nonterminal) : ∀ p ∈ n.productions,
    ∀ q ∈ [(Rule.forExpression, Nonterminal.forExpression),
      (.quantifiedExpression, .quantifiedExpression), (.ifExpression, .ifExpression)],
      n.nodeOf? p = some q.1 → n = q.2 := by
  cases n <;> decide

theorem mem_language_of_body {n : Nonterminal} {p : Production} (hp : p ∈ n.productions)
    (hw : w ∈ Symbol.languages p.body) : w ∈ n.language := by
  obtain ⟨us, hd⟩ := Symbol.derives_of_mem_languages n.keeps p.body w hw
  exact ⟨_, p, hp, us, hd, rfl⟩

theorem mem_expression_language {n : Nonterminal}
    (hn : Nonterminal.plain [.rule n] ∈ Nonterminal.expression.productions) (hw : w ∈ n.language) :
    w ∈ Nonterminal.expression.language := by
  refine mem_language_of_body hn ?_
  rwa [Nonterminal.plain, Symbol.languages_cons, Symbol.languages_nil, mul_one]

/-- The tokens before the last expression of an expression: any other expression may stand behind them. -/
def Leads (u : List Lexeme) : Prop :=
  ∀ v ∈ Nonterminal.expression.language, u ++ v ∈ Nonterminal.expression.language

theorem leads_of_body {n : Nonterminal} {front : List Symbol}
    (hn : Nonterminal.plain [.rule n] ∈ Nonterminal.expression.productions)
    (hp : Nonterminal.plain (front ++ [.rule .expression]) ∈ n.productions)
    (hu : u ∈ Symbol.languages front) : Leads u := by
  intro v hv
  refine mem_expression_language hn (mem_language_of_body hp ?_)
  rw [Nonterminal.plain, Symbol.languages_append, Symbol.languages_cons, Symbol.languages_nil, mul_one]
  exact Language.append_mem_mul hu hv

/-- The tokens of a loop and of a quantified expression. -/
theorem Tree.ComesOf.loop (h : Tree.ComesOf (.node rule span children) w)
    (hr : rule = .forExpression ∨ rule = .quantifiedExpression) :
    ∃ u v ts t, w = u ++ v ∧ children = ts ++ [t] ∧ Nonterminal.expression.Tells v t ∧ Leads u := by
  cases h with
  | @node n p _ _ _ hp hnode hd =>
    obtain rfl | rfl := hr
    · obtain rfl := nonterminal_of_trailing n p hp (.forExpression, .forExpression) (by simp) hnode
      obtain rfl := List.mem_singleton.1 hp
      cases hd with
      | @dropped _ _ l _ _ hl hd =>
        obtain ⟨u, _, bindings, _, rfl, rfl, hbindings, hd⟩ := Derives.of_rule rfl hd
        cases hd with
        | @dropped _ _ k _ _ hk hd =>
          obtain ⟨v, _, body, _, rfl, rfl, hbody, hd⟩ := Derives.of_rule rfl hd
          cases hd
          have hfront := Symbol.mem_languages (Derives.dropped hl (hbindings.derives (.dropped hk .nil)))
          exact ⟨l :: (u ++ [k]), v, [bindings], body, by simp, rfl, hbody,
            leads_of_body (n := .forExpression) (.head _) (.head _) hfront⟩
    · obtain rfl := nonterminal_of_trailing n p hp (.quantifiedExpression, .quantifiedExpression)
        (by simp) hnode
      obtain rfl := List.mem_singleton.1 hp
      cases hd with
      | @named _ _ _ l _ _ hl hd =>
        obtain ⟨u, _, bindings, _, rfl, rfl, hbindings, hd⟩ := Derives.of_rule rfl hd
        cases hd with
        | @dropped _ _ k _ _ hk hd =>
          obtain ⟨v, _, body, _, rfl, rfl, hbody, hd⟩ := Derives.of_rule rfl hd
          cases hd
          have hfront := Symbol.mem_languages (Derives.named hl (hbindings.derives
            (Derives.dropped hk .nil)))
          exact ⟨l :: (u ++ [k]), v, [.token l.token, bindings], body, by simp, rfl, hbody,
            leads_of_body (n := .quantifiedExpression) (.tail _ (.head _)) (.head _) hfront⟩

/-- The tokens of a choice up to its first branch. -/
def choiceFront : List Symbol :=
  [Nonterminal.wordOf .ifWord, .rule .expression, Nonterminal.wordOf .thenWord]

/-- The word `else` and a branch behind it. -/
def elsePart : List Symbol := [Nonterminal.wordOf .elseWord, .rule .expression]

/-- The tokens of a choice: those up to its first branch, that branch, and the last branch if there is one. -/
theorem Tree.ComesOf.choice (h : Tree.ComesOf (.node .ifExpression span children) w) :
    ∃ u v condition yes, u ∈ Symbol.languages choiceFront ∧ Nonterminal.expression.Tells v yes ∧
      ((children = [condition, yes] ∧ w = u ++ v) ∨
        ∃ l x no, l.kind ∈ [Terminal.keyword .elseWord] ∧ Nonterminal.expression.Tells x no ∧
          children = [condition, yes, no] ∧ w = u ++ v ++ l :: x) := by
  cases h with
  | @node n p _ _ _ hp hnode hd =>
    obtain rfl := nonterminal_of_trailing n p hp (.ifExpression, .ifExpression) (by simp) hnode
    obtain rfl := List.mem_singleton.1 hp
    cases hd with
    | @dropped _ _ l _ _ hl hd =>
      obtain ⟨u, _, condition, _, rfl, rfl, hcondition, hd⟩ := Derives.of_rule rfl hd
      cases hd with
      | @dropped _ _ k _ _ hk hd =>
        obtain ⟨v, _, yes, _, rfl, rfl, hyes, hd⟩ := Derives.of_rule rfl hd
        have hhead : l :: (u ++ [k]) ∈ Symbol.languages choiceFront :=
          Symbol.mem_languages (Derives.dropped hl (hcondition.derives (.dropped hk .nil)))
        refine ⟨l :: (u ++ [k]), v, condition, yes, hhead, hyes, ?_⟩
        cases hd with
        | absent hd =>
          cases hd
          exact .inl ⟨rfl, by simp⟩
        | present hd =>
          cases hd with
          | @dropped _ _ m _ _ hm hd =>
            obtain ⟨x, _, no, _, rfl, rfl, hno, hd⟩ := Derives.of_rule rfl hd
            cases hd
            exact .inr ⟨m, x, no, hm, hno, rfl, by simp⟩

theorem mem_choice (hu : u ∈ Symbol.languages choiceFront) (hv : v ∈ Nonterminal.expression.language)
    (hw : w ∈ 1 + Symbol.languages elsePart) : u ++ (v ++ w) ∈ Nonterminal.expression.language := by
  refine mem_expression_language (n := .ifExpression) (.tail _ (.tail _ (.head _)))
    (mem_language_of_body (.head _) ?_)
  have hbody : u ++ (v ++ (w ++ [])) ∈ Symbol.languages (choiceFront ++
      [.rule .expression, .optional elsePart]) := by
    rw [Symbol.languages_append]
    exact Language.append_mem_mul hu (Language.append_mem_mul hv
      (Language.append_mem_mul hw (Language.nil_mem_one)))
  rwa [List.append_nil] at hbody

theorem mem_elsePart {l : Lexeme} (hl : l.kind ∈ [Terminal.keyword .elseWord])
    (hv : v ∈ Nonterminal.expression.language) : l :: v ∈ Symbol.languages elsePart := by
  have hpart : [l] ++ (v ++ []) ∈ Symbol.languages elsePart :=
    Language.append_mem_mul (mem_tokenOf hl) (Language.append_mem_mul hv Language.nil_mem_one)
  rwa [List.append_nil] at hpart

/-- **A tree with a complete choice at its right edge also derives without its last branch**: some tokens of an
expression are followed by `else` and the tokens of another one. -/
theorem exists_else_split {u : Tree} (hu : u.Complete) (h : u.Ends t) : ∀ {w}, t.ComesOf w →
    ∃ x l y, w = x ++ l :: y ∧ l.kind ∈ [Terminal.keyword .elseWord] ∧
      x ∈ Nonterminal.expression.language ∧ y ∈ Nonterminal.expression.language := by
  induction h with
  | self =>
    intro w hw
    obtain ⟨span, condition, yes, no⟩ := hu
    obtain ⟨u, v, _, _, hu, hv, ⟨hchildren, -⟩ | ⟨l, x, _, hl, hx, -, rfl⟩⟩ := hw.choice
    · cases hchildren
    · have hfirst := mem_choice hu ⟨_, hv⟩ (.inl rfl)
      rw [List.append_nil] at hfirst
      exact ⟨u ++ v, l, x, rfl, hl, hfirst, _, hx⟩
  | @last rule span ts t hr _ ih =>
    intro w hw
    -- what stands behind some tokens may be replaced by the expression before the `else`
    have hreplace : ∀ {u v}, w = u ++ v → Nonterminal.expression.Tells v t → Leads u →
        ∃ x l y, w = x ++ l :: y ∧ l.kind ∈ [Terminal.keyword .elseWord] ∧
          x ∈ Nonterminal.expression.language ∧ y ∈ Nonterminal.expression.language := by
      rintro u v rfl hv hlead
      obtain ⟨x, l, y, rfl, hl, hx, hy⟩ := ih (hv.comesOf rfl)
      exact ⟨u ++ x, l, y, (List.append_assoc ..).symm, hl, hlead x hx, hy⟩
    have hcases : rule = .ifExpression ∨ rule = .forExpression ∨ rule = .quantifiedExpression := by
      simpa [Rule.trailing, or_comm, or_assoc, or_left_comm] using hr
    obtain rfl | hloop := hcases
    · obtain ⟨u, v, condition, yes, hu, hv, ⟨hchildren, rfl⟩ | ⟨m, x, no, hm, hx, hchildren, rfl⟩⟩ := hw.choice
      · have hparts : ts ++ [t] = [condition] ++ [yes] := hchildren
        obtain rfl := List.singleton_inj.1 (List.append_inj' hparts rfl).2
        refine hreplace rfl hv fun v hv => ?_
        have hchoice := mem_choice hu hv (.inl rfl)
        rwa [List.append_nil] at hchoice
      · have hparts : ts ++ [t] = [condition, yes] ++ [no] := hchildren
        obtain rfl := List.singleton_inj.1 (List.append_inj' hparts rfl).2
        refine hreplace (u := u ++ v ++ [m]) (by simp) hx fun x hx => ?_
        simpa using mem_choice hu ⟨_, hv⟩ (.inr (mem_elsePart hm hx))
    · obtain ⟨u, v, ts', t', rfl, hchildren, hv, hlead⟩ := hw.loop hloop
      obtain ⟨-, hlast⟩ := List.append_inj' hchildren rfl
      obtain rfl := List.singleton_inj.1 hlast
      exact hreplace rfl hv hlead

end Derivations

/-! ## Readings with and without a last branch -/

namespace Readings

variable {α : Type} {r : Readings α} {found : List (α × Cursor)} {y : α × Cursor}

/-- One reading ends at each place. -/
theorem find_of_mem (h : Descending found) (hy : y ∈ found) :
    found.find? (·.2.stop = y.2.stop) = some y := by
  induction found with
  | nil => exact absurd hy List.not_mem_nil
  | cons x rest ih =>
    obtain ⟨hfirst, hrest⟩ := List.pairwise_cons.1 h
    rcases List.mem_cons.1 hy with rfl | hy
    · exact List.find?_cons_of_pos (by simp)
    · have hlater : y.2.stop < x.2.stop := hfirst y hy
      rw [List.find?_cons_of_neg (by simpa using hlater.ne'), ih hrest hy]

/-- The second of two ways is taken only where the first one has no reading. -/
theorem mem_union (hr : Descending r.found) (s : Readings α) (hy : y ∈ (r.union s).found) :
    y ∈ r.found ∨ ¬EndsAt r.found y.2.stop := by
  refine or_iff_not_imp_right.2 fun hends => ?_
  obtain ⟨x, hx, hstop⟩ := not_not.1 hends
  have hunion : (r.union s).upTo? y.2.stop = some y := find_of_mem (descending_union hr s) hy
  have hfirst : r.upTo? y.2.stop = some x := hstop ▸ find_of_mem hr hx
  rw [upTo_union hr, hfirst, Option.some_or, Option.some.injEq] at hunion
  exact hunion ▸ hx

end Readings

/-- No choice without an `else` has one with an `else` at the right edge of its branch. -/
def Tree.TakesElse (t : Tree) : Prop :=
  ∀ span condition yes, t = .node .ifExpression span [condition, yes] →
    ∀ u : Tree, u.Complete → ¬u.Ends yes

/-- All parts of a tree are such. -/
def Tree.Settled (t : Tree) : Prop := ∀ u, t.IsPart u → u.TakesElse

section

variable {rule : Rule} {span : Option Span} {ts : List Tree}

theorem settled_node (hnode : (Tree.node rule span ts).TakesElse) (h : ∀ t ∈ ts, t.Settled) :
    (Tree.node rule span ts).Settled := by
  intro u hu
  obtain rfl | ⟨c, hc, hcu⟩ := hu.eq_or_child
  · exact hnode
  · exact h c hc u hcu

theorem settled_handed : Tree.Handed Tree.Settled where
  token k := by
    intro u hu
    obtain rfl | ⟨c, hc, -⟩ := hu.eq_or_child
    · exact nofun
    · exact absurd hc List.not_mem_nil
  node rule span ts hr h := by
    refine settled_node ?_ h
    rintro _ _ _ ⟨⟩
    exact absurd rfl hr

end

namespace Grammar

open Readings

variable {e : Reader Tree} {n : ℕ} {c : Cursor}

/-- What is read by a rule is a node of its parts. -/
theorem mem_rule {r : Rule} {parts : Reader (List Tree)} {y : Tree × Cursor}
    (h : y ∈ (rule r parts c).found) :
    ∃ span ts, (ts, y.2) ∈ (parts c).found ∧ y.1 = .node r span ts := by
  obtain ⟨x, hx, hy⟩ := of_mem_bind h
  obtain ⟨z, hz, hx⟩ := of_mem_bind hx
  obtain rfl := List.mem_singleton.1 hx
  obtain ⟨stop, hstop, hy⟩ := of_mem_bind hy
  obtain rfl := List.mem_singleton.1 hstop
  obtain rfl := List.mem_singleton.1 hy
  exact ⟨_, z.1, hz, rfl⟩

/-- A choice with both branches is read where its tokens are. -/
theorem endsAt_choice (hfinds : e.Finds n Nonterminal.expression.language) (ho : c.Ordered) {f x z : List Lexeme}
    {l : Lexeme} {d : Cursor} (hw : c.Passes (f ++ (x ++ l :: z)) d) (hlength : (f ++ (x ++ l :: z)).length < n + 1)
    (hf : f ∈ Symbol.languages choiceFront) (hx : x ∈ Nonterminal.expression.language)
    (hl : l.kind ∈ [Terminal.keyword .elseWord]) (hz : z ∈ Nonterminal.expression.language) :
    Readings.EndsAt (((do
      keyword .ifWord
      let condition ← e
      keyword .thenWord
      return [condition, ← e] : Reader (List Tree)) >>= fun parts => do
        keyword .elseWord
        return parts ++ [← e]) c).found d.stop := by
  refine ((finds_ifHead hfinds).bind (finds_elseBranch hfinds)).endsAt ho hw hlength ?_
  have hhead : f ++ (x ++ []) ∈ Symbol.languages (choiceFront ++ [.rule .expression]) := by
    rw [Symbol.languages_append]
    exact Language.append_mem_mul hf (Language.append_mem_mul hx Language.nil_mem_one)
  simpa [choiceFront, elsePart, Symbol.languages_cons, Symbol.languages_nil]
    using Language.append_mem_mul hhead (mem_elsePart hl hz)

/-- A choice whose last branch is left out was read so because none can be read. -/
theorem makes_ifExpression (hyields : e.Yields Nonterminal.expression.Tells)
    (hfinds : e.Finds n Nonterminal.expression.language) (he : e.Makes n Tree.Settled) :
    (ifExpression e).Makes (n + 1) Tree.Settled := by
  have hhead : (do
      keyword .ifWord
      let condition ← e
      keyword .thenWord
      return [condition, ← e] : Reader (List Tree)).Makes (n + 1) fun ts =>
        All Tree.Settled ts ∧ ts.length = 2 :=
    makes_skip_bind (he.bind fun _ hcondition => makes_skip_then (he.bind fun _ hyes =>
      makes_pure ⟨all_cons hcondition (all_one hyes), rfl⟩))
  have helse : ∀ ts, All Tree.Settled ts ∧ ts.length = 2 → (do
      keyword .elseWord
      return ts ++ [← e] : Reader (List Tree)).Makes (n + 1) fun ts =>
        All Tree.Settled ts ∧ ts.length = 3 :=
    fun ts hts => makes_skip_bind (he.bind fun _ hno =>
      makes_pure ⟨all_append hts.1 (all_one hno), by rw [List.length_append, hts.2]; rfl⟩)
  intro c ho hc y hy
  obtain ⟨span, ts, hts, hnode⟩ := mem_rule hy
  have hparts := (hhead.fork (fun ts h => Makes.mono (helse ts h) fun _ h => h.1)
    fun ts h => makes_pure h.1) c ho hc _ hts
  refine ⟨?_, hparts.2⟩
  rw [hnode]
  refine settled_node ?_ hparts.1
  rintro _ condition yes ⟨⟩ u hu hends
  -- the tokens of the branch are those of an expression, `else` and another expression
  obtain ⟨w, hw, htells⟩ := (yields_ifExpression hyields c).spans y hy
  rw [hnode] at htells
  obtain ⟨f, v, _, _, hf, hv, ⟨hchildren, rfl⟩ | ⟨_, _, _, _, _, hchildren, _⟩⟩ :=
    (htells.comesOf rfl).choice
  swap
  · cases hchildren
  cases hchildren
  obtain ⟨x, l, z, rfl, hl, hx, hz⟩ := exists_else_split hu hends (hv.comesOf rfl)
  have hlength : (f ++ (x ++ l :: z)).length < n + 1 := by
    have hrest := congrArg List.length hw.rest
    rw [List.length_append] at hrest
    omega
  -- so the choice can be read with them, up to the same place
  have hother := endsAt_choice hfinds ho hw hlength hf hx hl hz
  obtain hfirst | hnone := mem_union (descending_bind _ _) _ hts
  · exact nomatch ((hhead.bind helse) c ho hc _ hfirst).1.2
  · exact hnone hother

/-- **In expressions no incomplete choice has a complete one at the right edge of its branch.** -/
theorem makes_expression (n : ℕ) : (expression n).Makes n Tree.Settled := by
  induction n with
  | zero => exact makes_none
  | succ n ih =>
    refine makes_oneOf ?_
    simp only [List.forall_mem_cons, List.not_mem_nil, false_implies, implies_true, and_true]
    exact ⟨makes_forExpression settled_handed ih, makes_quantifiedExpression settled_handed ih,
      makes_ifExpression (yields_expression n) (finds_expression n) ih, makes_orLevel settled_handed ih⟩

end Grammar

/-- The trees of all sources are settled. -/
theorem settled_of_parse {unary : Bool} {source : String} {t : Tree} (h : parse unary source = .ok t) :
    t.Settled := by
  obtain ⟨hstop, ht⟩ := parse_eq_ok.1 h
  have htokens : Tokens unary 0 source.toList (lex unary source).lexemes :=
    lex_eq_iff.1 (by rw [← hstop])
  obtain ⟨y, hy, rfl⟩ := Option.map_eq_some_iff.1 ht
  have hfound := List.mem_of_find?_eq_some hy
  have he := Grammar.makes_expression ((lex unary source).lexemes.length + 1)
  cases unary with
  | true =>
    exact (Grammar.makes_unaryTests settled_handed he ⟨0, _⟩ htokens.ordered (Nat.lt_succ_self _) y hfound).1
  | false =>
    exact (Grammar.makes_expressions settled_handed he ⟨0, _⟩ htokens.ordered (Nat.lt_succ_self _) y hfound).1


section

variable {unary : Bool} {source : String} {t : Tree} {span inner : Option Span}

/-- **An `else` belongs to the outermost choice that can take it**: a choice without one never has a choice with
one at the right edge of its branch. -/
theorem else_belongs_to_outermost (h : parse unary source = .ok t) {condition yes : Tree}
    (hpart : t.IsPart (.node .ifExpression span [condition, yes])) {condition' yes' no' : Tree} :
    ¬(Tree.node .ifExpression inner [condition', yes', no']).Ends yes :=
  settled_of_parse h _ hpart span condition yes rfl _ (.intro inner condition' yes' no')

end

/-- Whether a source is a choice with an `else`, and its first branch is one without. -/
def Tree.elseIsOutermost : Tree → Bool
  | .node .expressions _ [.node .ifExpression _ [_, .node .ifExpression _ [_, _], _]] => true
  | _ => false

/-- The only `else` of two choices is the last branch of the outer one. -/
theorem parse_two_choices : ∃ all outer inner condition condition' yes no,
    parse false "if a then if b then c else d" = .ok (.node .expressions all
      [.node .ifExpression outer [condition, .node .ifExpression inner [condition', yes], no]]) := by
  have hread : (parse false "if a then if b then c else d").toOption.any Tree.elseIsOutermost = true := by
    decide +kernel
  obtain ⟨t, hparse, hform⟩ := Run.ok_of_any hread
  unfold Tree.elseIsOutermost at hform
  split at hform
  · exact ⟨_, _, _, _, _, _, _, hparse⟩
  · cases hform

/-- The inner one of two choices has no `else`, and its branch does not end with one. -/
theorem inner_branch_takes_no_else : ∃ t inner condition yes,
    parse false "if a then if b then c else d" = .ok t ∧
    t.IsPart (.node .ifExpression inner [condition, yes]) ∧
    ∀ span condition' yes' no', ¬(Tree.node .ifExpression span [condition', yes', no']).Ends yes := by
  obtain ⟨all, outer, inner, condition, condition', yes, no, hparse⟩ := parse_two_choices
  have hpart : Tree.IsPart (.node .expressions all
      [.node .ifExpression outer [condition, .node .ifExpression inner [condition', yes], no]])
      (.node .ifExpression inner [condition', yes]) :=
    .child (.child .self (.head _)) (.tail _ (.head _))
  exact ⟨_, inner, condition', yes, hparse, hpart, fun span _ _ _ =>
    else_belongs_to_outermost hparse hpart⟩

/-- **The `else` is not that of the nearest choice**: a choice with one has a choice without one as its first
branch. -/
theorem else_not_of_nearest : ∃ t span condition yes no,
    parse false "if a then if b then c else d" = .ok t ∧
    t.IsPart (.node .ifExpression span [condition, yes, no]) ∧
    ∃ inner condition' yes', (Tree.node .ifExpression inner [condition', yes']).Ends yes := by
  obtain ⟨all, outer, inner, condition, condition', yes, no, hparse⟩ := parse_two_choices
  exact ⟨_, outer, condition, _, no, hparse, .child .self (.head _), inner, condition', yes, .self⟩

end Criterion

import Criterion.Proofs.Determined
import Mathlib.Logic.Relation
import Mathlib.Tactic.IntervalCases

/-!
# Chains of operators

Operands with operators between them have many readings: each one that ends in front of an operator is one.
But the levels above go on from none of these, so the longest one is what counts.

* `Reader.Only`: one reading ends last, and all others end in front of a token of certain kinds.
* `Reader.Only.bind`: what such a reader and the next one read, where nothing goes on from the others.
* `Reader.only_strides`: a chain takes all its steps.
* `Grammar.Takes`: an operator and its operand, which the tree before them takes up.
* `Grammar.only_leftJoined`: **a chain of operators is read from left to right.**
* `Grammar.only_expressionLevel`: what is read as a sum is read as an expression, up to a closing
  parenthesis.
* `Grammar.sole_parenthesized`: parentheses make it an operand.
-/

namespace Criterion

open Readings

variable {α β : Type}

/-- A token of one of some kinds comes next. -/
def Cursor.Before (c : Cursor) (kinds : List Terminal) : Prop := ∃ l ∈ c.rest.head?, l.kind ∈ kinds

theorem Cursor.Before.headIn {c : Cursor} {kinds : List Terminal} (h : c.Before kinds) :
    c.HeadIn kinds := by
  obtain ⟨l, hl, hkind⟩ := h
  intro k hk
  obtain rfl := Option.mem_unique hl hk
  exact hkind

theorem Cursor.Before.mono {c : Cursor} {kinds kinds' : List Terminal} (h : c.Before kinds)
    (hkinds : kinds ⊆ kinds') : c.Before kinds' :=
  h.imp fun _ hl => ⟨hl.1, hkinds hl.2⟩

namespace Reader

/-- No token is read, though nothing may be. -/
def Stays (r : Reader α) (c : Cursor) : Prop := ∀ z ∈ (r c).found, z.2 = c

/-- One reading ends last, and all others end in front of a token of certain kinds. -/
structure Only (r : Reader α) (c : Cursor) (a : α) (d : Cursor) (kinds : List Terminal) : Prop where
  ends : EndsAt (r c).found d.stop
  all : ∀ y ∈ (r c).found, y = (a, d) ∨ (y.2.stop < d.stop ∧ y.2.Before kinds)

section Only

variable {r s : Reader α} {f g : α → Reader β} {a : α} {b : β} {c d e : Cursor}
  {kinds kinds' : List Terminal}

theorem Sole.stays (h : r.Sole c a c) : r.Stays c := by
  intro z hz
  rw [h] at hz
  rw [List.mem_singleton.1 hz]

theorem Sole.only (h : r.Sole c a d) (kinds : List Terminal) : r.Only c a d kinds := by
  have hmem : ∀ y, y ∈ (r c).found ↔ y = (a, d) := fun y => by rw [h, List.mem_singleton]
  exact ⟨⟨(a, d), (hmem _).2 rfl, rfl⟩, fun y hy => .inl ((hmem y).1 hy)⟩

theorem Sole.bind_only (h : r.Sole c a d) (hf : (f a).Only d b e kinds) :
    (r >>= f).Only c b e kinds := by
  have hmem : ∀ y, y ∈ (r c).found ↔ y = (a, d) := fun y => by rw [h, List.mem_singleton]
  refine ⟨EndsAt.bind ((hmem _).2 rfl) hf.ends, fun z hz => ?_⟩
  obtain ⟨y, hy, hz⟩ := of_mem_bind hz
  obtain rfl := (hmem y).1 hy
  exact hf.all z hz

namespace Only

theorem mem (h : r.Only c a d kinds) : (a, d) ∈ (r c).found := by
  obtain ⟨y, hy, hstop⟩ := h.ends
  obtain rfl | ⟨hlt, -⟩ := h.all y hy
  · exact hy
  · omega

/-- Where the tokens end, it is the reading that uses them all. -/
theorem complete {r : Reader Tree} {t : Tree} (h : r.Only c t d kinds) (hd : d.rest = []) :
    (r c).complete? = some t := by
  cases hfind : (r c).found.find? fun y => y.2.rest.isEmpty with
  | none => exact absurd (by rw [hd]; rfl) (List.find?_eq_none.1 hfind _ h.mem)
  | some y =>
    have hempty := List.find?_some hfind
    obtain rfl | ⟨-, l, hl, -⟩ := h.all y (List.mem_of_find?_eq_some hfind)
    · unfold complete?
      rw [hfind]
      rfl
    · rw [List.isEmpty_iff.1 hempty] at hl
      exact absurd hl (Option.not_mem_none l)

/-- Without tokens to end in front of there is one reading. -/
theorem sole (h : r.Only c a d []) (hsorted : Descending (r c).found) : r.Sole c a d := by
  have hall : ∀ y ∈ (r c).found, y = (a, d) := by
    intro y hy
    obtain rfl | ⟨-, l, -, hl⟩ := h.all y hy
    · rfl
    · exact absurd hl List.not_mem_nil
  unfold Sole
  cases hfound : (r c).found with
  | nil => exact absurd (hfound ▸ h.mem) List.not_mem_nil
  | cons y others =>
    rw [hfound] at hall hsorted
    obtain ⟨rfl, hothers⟩ := List.forall_mem_cons.1 hall
    cases others with
    | nil => rfl
    | cons z others =>
      -- a second reading would end earlier
      have hlt := (List.pairwise_cons.1 hsorted).1 z (.head _)
      rw [hothers z (.head _)] at hlt
      exact absurd hlt (lt_irrefl _)

/-- The next reader goes on from the last reading, and reads no token from where the others end. -/
theorem bind_of_mem (h : r.Only c a d kinds) (hf : (f a).Only d b e kinds') (hkinds : kinds ⊆ kinds')
    (hle : d.stop ≤ e.stop) (hothers : ∀ y ∈ (r c).found, y.2.Before kinds → (f y.1).Stays y.2) :
    (r >>= f).Only c b e kinds' := by
  refine ⟨EndsAt.bind h.mem hf.ends, fun z hz => ?_⟩
  obtain ⟨y, hy, hz⟩ := of_mem_bind hz
  obtain rfl | ⟨hlt, hbefore⟩ := h.all y hy
  · exact hf.all z hz
  · -- a reading that ends earlier is handed on as it is
    rw [hothers y hy hbefore z hz]
    exact .inr ⟨hlt.trans_le hle, hbefore.mono hkinds⟩

theorem bind (h : r.Only c a d kinds) (hf : (f a).Only d b e kinds') (hkinds : kinds ⊆ kinds')
    (hle : d.stop ≤ e.stop) (hothers : ∀ y : α × Cursor, y.2.Before kinds → (f y.1).Stays y.2) :
    (r >>= f).Only c b e kinds' :=
  h.bind_of_mem hf hkinds hle fun y _ => hothers y

/-- Where nothing goes on from the other readings, they are gone. -/
theorem bind_sole (h : r.Only c a d kinds) (hf : (f a).Sole d b e)
    (hothers : ∀ y : α × Cursor, y.2.Before kinds → (f y.1).Blocked y.2) : (r >>= f).Sole c b e := by
  refine Only.sole ⟨EndsAt.bind h.mem (hf.only []).ends, fun z hz => ?_⟩ (descending_bind _ _)
  obtain ⟨y, hy, hz⟩ := of_mem_bind hz
  obtain rfl | ⟨-, hbefore⟩ := h.all y hy
  · exact (hf.only []).all z hz
  · rw [hothers y hbefore] at hz
    exact absurd hz List.not_mem_nil

theorem either_left (h : r.Only c a d kinds)
    (hs : ∀ z ∈ (s c).found, z.2.stop < d.stop ∧ z.2.Before kinds) : (either r s).Only c a d kinds := by
  refine ⟨EndsAt.union (.inl h.ends), fun y hy => ?_⟩
  rcases of_mem_union hy with hy | hy
  · exact h.all y hy
  · exact .inr (hs y hy)

theorem either_right (hr : r.Blocked c) (h : s.Only c a d kinds) : (either r s).Only c a d kinds := by
  refine ⟨EndsAt.union (.inr h.ends), fun y hy => ?_⟩
  rcases of_mem_union hy with hy | hy
  · rw [hr] at hy
    exact absurd hy List.not_mem_nil
  · exact h.all y hy

theorem either_blocked (h : r.Only c a d kinds) (hs : s.Blocked c) : (either r s).Only c a d kinds :=
  h.either_left fun z hz => by
    rw [hs] at hz
    exact absurd hz List.not_mem_nil

/-- One of several readers goes on, and the others are blocked. -/
theorem oneOf (before after : List (Reader α)) (h : r.Only c a d kinds)
    (hbefore : ∀ s ∈ before, s.Blocked c) (hafter : ∀ s ∈ after, s.Blocked c) :
    (oneOf (before ++ r :: after)).Only c a d kinds := by
  induction before with
  | nil => exact h.either_blocked (blocked_oneOf hafter)
  | cons s before ih =>
    obtain ⟨hs, hbefore⟩ := List.forall_mem_cons.1 hbefore
    exact either_right hs (ih hbefore)

/-- What is made of the readings. -/
theorem map (g : α → β) (h : r.Only c a d kinds) : (r >>= fun a => pure (g a)).Only c (g a) d kinds :=
  h.bind ((sole_pure _ d).only _) (List.Subset.refl _) le_rfl fun y _ => (sole_pure _ y.2).stays

/-- What is made of the readings and of the places where they end. -/
theorem placed (g : α → ℕ → β) (h : r.Only c a d kinds) :
    (r >>= fun a => position >>= fun stop => pure (g a stop)).Only c (g a d.stop) d kinds := by
  have hplace : ∀ a x, (position >>= fun stop => pure (g a stop)).Sole x (g a x.stop) x :=
    fun a x => Sole.bind (r := position) rfl (sole_pure _ x)
  exact h.bind ((hplace a d).only _) (List.Subset.refl _) le_rfl fun y _ => (hplace y.1 y.2).stays

/-- A rule with its parts. -/
theorem rule {parts : Reader (List Tree)} {ts : List Tree} (r : Rule) (h : parts.Only c ts d kinds) :
    ∃ span, (Grammar.rule r parts).Only c (.node r span ts) d kinds := by
  have hnode := (h.map fun ts => (r, ts)).placed fun p stop =>
    Tree.node p.1 (c.rest.head?.map fun l => ⟨l.start, stop⟩) p.2
  exact ⟨_, hnode.ends, hnode.all⟩

/-- A chain that nothing goes on with, neither behind the last reading nor behind the others. -/
theorem chained {step : α → Reader α} {ends : List Terminal} (h : r.Only c a d kinds)
    (hkinds : kinds ⊆ ends) (hd : d.HeadIn ends)
    (hstep : ∀ a x, Cursor.HeadIn x ends → (step a).Blocked x) :
    (do
      let first ← r
      chain step first : Reader α).Only c a d kinds := by
  refine h.bind ((sole_chain (hstep a d hd)).only _) (List.Subset.refl _) le_rfl fun y hy => ?_
  exact (sole_chain (hstep y.1 y.2 (hy.mono hkinds).headIn)).stays

end Only

theorem sole_steps {step : α → Reader α} (h : (step a).Blocked c) (n : ℕ) :
    (steps step n a).Sole c a c := by
  cases n with
  | zero => exact sole_pure a c
  | succ n => exact Sole.either_right (h.bind _) (sole_pure a c)

/-- A step of a chain, from a place in front of a token of certain kinds to a later one. -/
structure Strides (step : α → Reader α) (starts kinds : List Terminal) (x y : α × Cursor) : Prop where
  only : (step x.1).Only x.2 y.1 y.2 kinds
  before : x.2.Before starts
  lt : x.2.stop < y.2.stop
  shorter : y.2.rest.length < x.2.rest.length

/-- **A chain takes all its steps**, and could stop in front of each. -/
theorem only_strides {step : α → Reader α} {starts : List Terminal}
    (hkinds : ∀ a (x : Cursor), x.Before kinds → (step a).Blocked x) {start finish : α × Cursor}
    (h : Relation.ReflTransGen (Strides step starts kinds) start finish)
    (hfinish : (step finish.1).Blocked finish.2) :
    start.2.stop ≤ finish.2.stop ∧ (chain step start.1).Only start.2 finish.1 finish.2 (starts ++ kinds) := by
  -- from the first step on: the chain goes on behind it, or stops in front of it
  have hsteps : start.2.stop ≤ finish.2.stop ∧ ∀ n, start.2.rest.length ≤ n →
      (steps step n start.1).Only start.2 finish.1 finish.2 (starts ++ kinds) := by
    induction h using Relation.ReflTransGen.head_induction_on with
    | refl => exact ⟨le_rfl, fun n _ => (sole_steps hfinish n).only _⟩
    | @head x y hstride _ ih =>
      obtain ⟨hle, hsteps⟩ := ih
      have hshorter := hstride.shorter
      refine ⟨hstride.lt.le.trans hle, fun n hn => ?_⟩
      obtain ⟨n, rfl⟩ : ∃ m, n = m + 1 := ⟨n - 1, by omega⟩
      have hlonger := hstride.only.bind (hsteps n (by omega)) (List.subset_append_right _ _) hle
        fun z hz => (sole_steps (hkinds z.1 z.2 hz) n).stays
      -- the reading that stops here ends earlier
      refine hlonger.either_left fun z hz => ?_
      obtain rfl := List.mem_singleton.1 hz
      exact ⟨hstride.lt.trans_le hle, hstride.before.mono (List.subset_append_left _ _)⟩
  exact ⟨hsteps.1, (hsteps.2 _ le_rfl).ends, (hsteps.2 _ le_rfl).all⟩

end Only

end Reader

namespace Grammar

open Reader

/-! ## Operators and their operands -/

section Takes

variable {operand : Reader Tree} {operators kinds : List Terminal} {c d x : Cursor}
  {first left t : Tree}

/-- A step of a chain of operators. -/
def operatorStep (operand : Reader Tree) (operators : List Terminal) (left : Tree) : Reader Tree :=
  extend .arithmeticExpression left (do
    let op ← token operators
    return [op, ← operand])

/-- An operator and its operand, which the tree before them takes up. -/
inductive Takes (operand : Reader Tree) (operators kinds : List Terminal) :
    Tree × Cursor → Tree × Cursor → Prop where
  | intro {left u : Tree} {c d : Cursor} {l : Lexeme} {rest : List Lexeme} : c.rest = l :: rest →
    l.kind ∈ operators → operand.Only ⟨l.stop, rest⟩ u d kinds → c.stop < d.stop →
    d.rest.length < c.rest.length →
    Takes operand operators kinds (left, c)
      (.node .arithmeticExpression (left.span.map fun s => ⟨s.start, d.stop⟩)
        [left, .token l.token, u], d)

theorem only_operatorStep (h : Takes operand operators kinds (left, c) (t, d)) :
    (operatorStep operand operators left).Only c t d kinds := by
  cases h with
  | @intro _ u _ _ l rest hc hl hu _ _ =>
    have hparts : (do
        let op ← token operators
        return [op, ← operand] : Reader (List Tree)).Only c [.token l.token, u] d kinds :=
      (sole_token hc hl).bind_only (hu.map fun u => [.token l.token, u])
    exact hparts.placed fun ts stop =>
      Tree.node .arithmeticExpression (left.span.map fun s => ⟨s.start, stop⟩) (left :: ts)

theorem operatorStep_blocked (hc : ∀ l ∈ c.rest.head?, l.kind ∉ operators) :
    (operatorStep operand operators left).Blocked c := ((blocked_token hc).bind _).extend _ _

theorem Takes.strides {x y : Tree × Cursor} (h : Takes operand operators kinds x y) :
    Strides (operatorStep operand operators) operators kinds x y := by
  have hstep := only_operatorStep h
  cases h with
  | @intro _ _ _ _ l _ hc hl _ hlt hlength => exact ⟨hstep, ⟨l, by rw [hc]; rfl, hl⟩, hlt, hlength⟩

/-- **Operands with operators of one level between them are read from left to right.** -/
theorem only_leftJoined (hkinds : ∀ k ∈ kinds, k ∉ operators) (hfirst : operand.Only c first x kinds)
    (h : Relation.ReflTransGen (Takes operand operators kinds) (first, x) (t, d))
    (hd : ∀ l ∈ d.rest.head?, l.kind ∉ operators) :
    (leftJoined operand operators).Only c t d (operators ++ kinds) := by
  have hblocked : ∀ (left : Tree) (y : Cursor), y.Before kinds →
      (operatorStep operand operators left).Blocked y :=
    fun _ _ hy => operatorStep_blocked (avoids hy.headIn hkinds)
  have hstrides : Relation.ReflTransGen (Strides (operatorStep operand operators) operators kinds)
      (first, x) (t, d) := Relation.ReflTransGen.mono (fun _ _ => Takes.strides) _ _ h
  obtain ⟨hle, hchain⟩ := only_strides hblocked hstrides (operatorStep_blocked hd)
  exact hfirst.bind hchain (List.subset_append_right _ _) hle fun y hy =>
    (sole_chain (hblocked y.1 y.2 hy)).stays

end Takes

/-! ## Levels -/

section Levels

variable {e : Reader Tree} {c d x : Cursor} {first t : Tree} {k : ℕ}

/-- The levels of operators, from the loosest: sums, products, powers, and operands with their signs. -/
def level (e : Reader Tree) : ℕ → Reader Tree
  | 0 => sumLevel e
  | 1 => productLevel e
  | 2 => powerLevel e
  | _ => unaryLevel e

/-- The operators of a level. -/
def levelOperators : ℕ → List Terminal
  | 0 => [.plus, .minus]
  | 1 => [.star, .slash]
  | 2 => [.power]
  | _ => []

/-- The operators of a level and of all tighter ones. -/
def operatorsFrom : ℕ → List Terminal
  | 0 => [.plus, .minus, .star, .slash, .power]
  | 1 => [.star, .slash, .power]
  | 2 => [.power]
  | _ => []

/-- What may follow an expression of a level: a closing parenthesis, or an operator of a looser level. -/
def followers : ℕ → List Terminal
  | 0 => [.rightParen]
  | 1 => [.rightParen, .plus, .minus]
  | 2 => [.rightParen, .plus, .minus, .star, .slash]
  | _ => [.rightParen, .plus, .minus, .star, .slash, .power]

theorem level_eq (e : Reader Tree) (hk : k < 3) :
    level e k = leftJoined (level e (k + 1)) (levelOperators k) := by
  interval_cases k <;> rfl

theorem operatorsFrom_eq (hk : k < 3) :
    operatorsFrom k = levelOperators k ++ operatorsFrom (k + 1) := by
  interval_cases k <;> rfl

/-- No operator belongs to two levels. -/
theorem operatorsFrom_disjoint (hk : k < 3) : ∀ o ∈ operatorsFrom (k + 1), o ∉ levelOperators k := by
  interval_cases k <;> decide

theorem levelOperators_plain (hk : k < 3) :
    ∀ o ∈ levelOperators k, o ≠ .dots ∧ o.isTrivia = false := by
  interval_cases k <;> decide

theorem followers_succ (hk : k < 3) : levelOperators k ++ followers k ⊆ followers (k + 1) := by
  interval_cases k <;> decide

theorem followers_disjoint (hk : k < 3) : ∀ o ∈ followers k, o ∉ levelOperators k := by
  interval_cases k <;> decide

theorem descending_unaryLevel (e : Reader Tree) (c : Cursor) : Descending (unaryLevel e c).found := by
  have hbind : ∀ (r : Reader (Tree × Bool)) (f : Tree × Bool → Reader Tree),
      Descending ((r >>= f) c).found := fun _ _ => descending_bind _ _
  have hpostfix : Descending (postfixLevel e c).found := by
    unfold postfixLevel
    exact hbind _ _
  unfold unaryLevel
  cases c.rest.length with
  | zero => exact hpostfix
  | succ n =>
    unfold signs either
    exact descending_union hpostfix _

/-- An operand and all operators of a level behind it are an expression of the level. -/
theorem only_level (hk : k < 3) (hfirst : (level e (k + 1)).Only c first x (operatorsFrom (k + 1)))
    (h : Relation.ReflTransGen
      (Takes (level e (k + 1)) (levelOperators k) (operatorsFrom (k + 1))) (first, x) (t, d))
    (hd : d.HeadIn (followers k)) : (level e k).Only c t d (operatorsFrom k) := by
  rw [level_eq e hk, operatorsFrom_eq hk]
  exact only_leftJoined (operatorsFrom_disjoint hk) hfirst h (avoids hd (followers_disjoint hk))

/-- The tokens that a level looser than sums goes on with. -/
def looserStarts : List Terminal :=
  comparisonStarts ++ [.keyword .instanceWord, .keyword .andWord, .keyword .orWord]

/-- What is read as a sum is read as an expression, in front of tokens that no looser level goes on with. -/
theorem only_expressionLevel_of_sum {kinds : List Terminal} (ends : List Terminal)
    (h : (sumLevel e).Only c t d kinds) (hends : ∀ k ∈ ends, k ∉ looserStarts) (hkinds : kinds ⊆ ends)
    (hd : d.HeadIn ends) (hc : ∀ l ∈ c.rest.head?, l.kind ∉ loopWords) :
    (expressionLevel e).Only c t d kinds := by
  have hword : ∀ {k : Keyword}, .keyword k ∈ looserStarts → .keyword k ∉ ends :=
    fun hk hmem => hends _ hmem hk
  have hinstance : (instanceLevel e).Only c t d kinds :=
    h.chained hkinds hd fun _ x hx =>
      ((blocked_skip (avoids_one (c := x) hx (hword (by decide)))).bind _).extend _ _
  have hcomparison : (comparisonLevel e).Only c t d kinds := by
    refine Only.either_blocked (r := instanceLevel e >>= pure) (hinstance.map id) ?_
    refine blocked_bind fun y hy => ?_
    have hy : y.2.HeadIn ends := by
      rcases hinstance.all y hy with rfl | ⟨-, hbefore⟩
      · exact hd
      · exact (hbefore.mono hkinds).headIn
    have hnone := avoids hy fun k hk hstart => hends k hk (List.mem_append_left _ hstart)
    exact (comparisonRest_blocked hnone).extend _ _
  have hand : (andLevel e).Only c t d kinds :=
    hcomparison.chained hkinds hd fun _ x hx =>
      ((blocked_skip (avoids_one (c := x) hx (hword (by decide)))).bind _).extend _ _
  have hor : (orLevel e).Only c t d kinds :=
    hand.chained hkinds hd fun _ x hx =>
      ((blocked_skip (avoids_one (c := x) hx (hword (by decide)))).bind _).extend _ _
  exact Only.oneOf [forExpression e, quantifiedExpression e, ifExpression e] [] hor (loops_blocked hc)
    (List.forall_mem_nil _)

/-- **What is read as a sum is read as an expression**, up to a closing parenthesis. -/
theorem only_expressionLevel (h : (level e 0).Only c t d (operatorsFrom 0))
    (hc : ∀ l ∈ c.rest.head?, l.kind ∉ loopWords) (hd : d.HeadIn (followers 0)) :
    (expressionLevel e).Only c t d (operatorsFrom 0) :=
  only_expressionLevel_of_sum (operatorsFrom 0 ++ followers 0) h (by decide) (List.subset_append_left _ _)
    (fun l hl => List.mem_append_right _ (hd l hl)) hc

end Levels

/-! ## Parentheses -/

section Parentheses

variable {e : Reader Tree} {P : List Lexeme → Tree → Prop} {c d : Cursor} {t : Tree}
  {kinds : List Terminal} {l m : Lexeme} {inner rest : List Lexeme}

/-- An expression in parentheses is read up to the closing one. -/
theorem sole_parenthesized (hc : c.rest = l :: inner) (hl : l.kind = .leftParen)
    (h : e.Only ⟨l.stop, inner⟩ t d kinds) (hdots : .dots ∉ kinds) (hclosing : .rightParen ∉ kinds)
    (hd : d.rest = m :: rest) (hm : m.kind = .rightParen) :
    ∃ span, (parenthesized e).Sole c (.node .parenthesizedExpression span [t]) ⟨m.stop, rest⟩ := by
  have hhead : d.HeadIn [.rightParen] := Cursor.headIn_of_rest hd (List.mem_singleton.2 hm)
  have hend : (do skip .rightParen; return (Rule.parenthesizedExpression, [t]) :
      Reader (Rule × List Tree)).Sole d (.parenthesizedExpression, [t]) ⟨m.stop, rest⟩ :=
    (sole_skip hd hm).bind (sole_pure _ _)
  refine Sole.node ((sole_token hc (List.mem_singleton.2 hl)).bind (h.bind_sole ?_ ?_))
  · exact Sole.either_right (interval_blocked (avoids_one hhead (by decide)) _ _) hend
  · intro y hy
    exact (interval_blocked (avoids_one hy.headIn hdots) _ _).either
      ((blocked_skip (avoids_one hy.headIn hclosing)).bind _)

/-- An expression in parentheses is a primary expression. -/
theorem sole_primary_parenthesized (he : e.Yields P) (hu : c.Undotted) (hc : c.HeadIn [.leftParen])
    (h : (parenthesized e).Sole c t d) : (primary e).Sole c t d := by
  have htoken : ∀ {k}, k ≠ .leftParen → (token [k]).Blocked c := fun hk =>
    blocked_token (avoids hc (by simpa using hk.symm))
  refine Sole.oneOf [literal, bracketed e, context e] _ h ?_ fun r hr => ?_
  · refine List.forall_mem_cons.2 ⟨literal_blocked (avoids hc (by decide)), ?_⟩
    refine List.forall_mem_cons.2 ⟨bracketed_blocked (avoids_one hc (by decide)), ?_⟩
    exact List.forall_mem_singleton.2 (context_blocked (avoids_one hc (by decide)))
  · simp only [List.mem_cons, List.not_mem_nil, or_false] at hr
    rcases hr with rfl | rfl | rfl | rfl
    · exact reversed_blocked he hu
    · exact (((htoken (by decide)).bind _).bind _).rule _
    · exact ((htoken (by decide)).bind _).rule _
    · exact ((htoken (by decide)).bind _).rule _

end Parentheses

end Grammar

end Criterion

import Criterion.Proofs.Acceptance
import Mathlib.Order.Monotone.Basic

/-!
# Tokens at other places

How some tokens are read does not depend on where they stand or on how they are written: readers look at the
kinds of tokens, and they compare places by their order. So all sources whose tokens have the same kinds have
one tree, up to the places and the texts of its tokens.

* `Layout`: where the tokens of a source stand and how they are written, by their number.
* `Reader.Located`: a reader has of located tokens the located readings that it has of the tokens.
* `Grammar.located_expression`: expressions are read alike at all places.
* `outline`: the tree of some tokens that are told by their kinds only.
* `complete_located`: **the tree of some tokens is the outline of their kinds, located.**
-/

namespace Criterion

open Readings

/-! ## Layouts -/

/-- Where the tokens of a source stand and how they are written. The ends of the tokens are in order. -/
structure Layout where
  start : ℕ → ℕ
  stop : ℕ → ℕ
  text : ℕ → String
  stop_lt : StrictMono stop

variable {α β : Type} (p : Layout)

/-- A token whose place is its number, at its place in a source. -/
def Lexeme.located (l : Lexeme) : Lexeme := ⟨l.kind, p.text l.start, p.start l.start, p.stop l.stop⟩

def Span.located (s : Span) : Span := ⟨p.start s.start, p.stop s.stop⟩

def Token.located (t : Token) : Token :=
  ⟨t.kind, (t.span.map fun s => p.text s.start).getD t.text, t.span.map (Span.located p)⟩

/-- A tree whose tokens are told by their numbers, with the tokens in their places. -/
def Tree.located : Tree → Tree
  | .token t => .token (t.located p)
  | .node rule span children => .node rule (span.map (Span.located p)) (locatedTrees children)
where
  locatedTrees : List Tree → List Tree
    | [] => []
    | t :: rest => t.located :: locatedTrees rest

def Cursor.located (c : Cursor) : Cursor := ⟨p.stop c.stop, c.rest.map (Lexeme.located p)⟩

/-- Readings of tokens in their places, with the values that belong there. -/
def Readings.located (m : α → α) (x : Readings α) : Readings α :=
  ⟨x.found.map fun y => (m y.1, y.2.located p), p.stop x.reached⟩

@[simp] theorem locatedTrees_eq (ts : List Tree) : Tree.located.locatedTrees p ts = ts.map (Tree.located p) := by
  induction ts with
  | nil => rfl
  | cons t rest ih => rw [Tree.located.locatedTrees, ih, List.map_cons]

theorem located_node (rule : Rule) (span : Option Span) (ts : List Tree) : (Tree.node rule span ts).located p =
    .node rule (span.map (Span.located p)) (ts.map (Tree.located p)) := by
  rw [Tree.located, locatedTrees_eq]

@[simp] theorem span_located (t : Tree) : (t.located p).span = t.span.map (Span.located p) := by
  cases t <;> rfl

@[simp] theorem token_located (l : Lexeme) : (l.located p).token = l.token.located p := rfl

@[simp] theorem Cursor.located_rest (c : Cursor) : (c.located p).rest = c.rest.map (Lexeme.located p) := rfl

@[simp] theorem Cursor.located_stop (c : Cursor) : (c.located p).stop = p.stop c.stop := rfl

variable {p} {m : α → α} {m' : β → β}

/-! ## Readings -/

namespace Readings

/-- Readings are put in order alike, since the order of places is kept. -/
theorem insert_located (x : α × Cursor) (xs : List (α × Cursor)) :
    insert (m x.1, x.2.located p) (xs.map fun y => (m y.1, y.2.located p)) =
      (insert x xs).map fun y => (m y.1, y.2.located p) := by
  induction xs with
  | nil => rfl
  | cons y ys ih =>
    rw [List.map_cons, insert, insert, ih]
    simp only [Cursor.located_stop, p.stop_lt.lt_iff_lt, p.stop_lt.injective.eq_iff]
    split_ifs <;> rfl

theorem union_located (x y : Readings α) : (x.located p m).union (y.located p m) = (x.union y).located p m := by
  obtain ⟨xs, reached⟩ := x
  obtain ⟨ys, reached'⟩ := y
  unfold union located
  refine Readings.mk.injEq .. ▸ ⟨?_, (p.stop_lt.monotone.map_max).symm⟩
  induction ys generalizing xs with
  | nil => rfl
  | cons y ys ih =>
    rw [List.map_cons, List.foldl_cons, List.foldl_cons, insert_located, ih]

end Readings

namespace Reader

/-- The second reader has of the tokens in their places the readings that the first one has of them by number,
in their places. -/
def Located (p : Layout) (m : α → α) (r r' : Reader α) : Prop := ∀ c : Cursor, r' (c.located p) = (r c).located p m

section Located

variable {r r' s s' : Reader α} {f f' g g' : α → Reader β} {a b : α}

theorem located_pure (h : m a = b) : Located p m (pure a) (pure b) := by
  rintro c
  rw [← h]
  rfl

theorem located_none : Located p m none none := fun _ => rfl

theorem Located.bind (h : Located p m r r') (hf : ∀ a, Located p m' (f a) (f' (m a))) :
    Located p m' (r >>= f) (r' >>= f') := by
  intro c
  show (r' (c.located p)).bind f' = ((r c).bind f).located p m'
  rw [h c]
  obtain ⟨xs, reached⟩ := r c
  unfold Readings.bind
  have hstart : (⟨[], p.stop reached⟩ : Readings β) = Readings.located p m' ⟨[], reached⟩ := rfl
  dsimp only [Readings.located]
  rw [hstart]
  generalize (⟨[], reached⟩ : Readings β) = all
  induction xs generalizing all with
  | nil => rfl
  | cons x xs ih => rw [List.map_cons, List.foldl_cons, List.foldl_cons, hf x.1 x.2, union_located, ih]

theorem located_token (kinds : List Terminal) : Located p (Tree.located p) (token kinds) (token kinds) := by
  rintro ⟨stop, rest⟩
  cases rest with
  | nil => rfl
  | cons l rest =>
    show (if kinds.contains l.kind then _ else _) = Readings.located p _ (if kinds.contains l.kind then _ else _)
    split <;> rfl

theorem located_skip (kind : Terminal) : Located p id (skip kind) (skip kind) :=
  (located_token [kind]).bind fun _ => located_pure rfl

theorem located_skip_bind {kind : Terminal} {f f' : Unit → Reader β} (hf : Located p m' (f ()) (f' ())) :
    Located p m' (skip kind >>= f) (skip kind >>= f') := (located_skip kind).bind fun _ => hf

theorem Located.either (h : Located p m r r') (h' : Located p m s s') :
    Located p m (either r s) (either r' s') := by
  intro c
  show (r' _).union (s' _) = _
  rw [h c, h' c, union_located]
  rfl

theorem Located.fork (h : Located p m r r') (hf : ∀ a, Located p m' (f a) (f' (m a)))
    (hg : ∀ a, Located p m' (g a) (g' (m a))) : Located p m' (fork r f g) (fork r' f' g') :=
  (h.bind hf).either (h.bind hg)

theorem located_oneOf_nil : Located p m (oneOf []) (oneOf []) := located_none

theorem located_oneOf_cons {rs rs' : List (Reader α)} (h : Located p m r r')
    (h' : Located p m (oneOf rs) (oneOf rs')) : Located p m (oneOf (r :: rs)) (oneOf (r' :: rs')) := h.either h'

theorem located_steps {step step' : α → Reader α} (h : ∀ a, Located p m (step a) (step' (m a))) (fuel : ℕ) (a : α) :
    Located p m (steps step fuel a) (steps step' fuel (m a)) := by
  induction fuel generalizing a with
  | zero => exact located_pure rfl
  | succ fuel ih => exact ((h a).bind ih).either (located_pure rfl)

theorem located_chain {step step' : α → Reader α} (h : ∀ a, Located p m (step a) (step' (m a))) (hab : m a = b) :
    Located p m (chain step a) (chain step' b) := by
  intro c
  have hlength : (c.located p).rest.length = c.rest.length := List.length_map _
  unfold chain
  rw [hlength, ← hab]
  exact located_steps h c.rest.length a c

/-- An item behind a token, put to the items before. -/
theorem located_items (kind : Terminal) (h : Located p m r r') (items : List α) :
    Located p (List.map m)
      (do
        skip kind
        let next ← r
        return items ++ [next])
      (do
        skip kind
        let next ← r'
        return items.map m ++ [next]) := by
  refine located_skip_bind (h.bind fun a => located_pure ?_)
  rw [List.map_append]
  rfl

theorem Located.separated (h : Located p m r r') : Located p (List.map m) (separated r) (separated r') :=
  h.bind fun _ => located_chain (fun items => located_items .comma h items) rfl

theorem located_position : Located p p.stop position position := fun _ => rfl

/-- A rule and its parts, in their places. -/
def locatedParts (p : Layout) (x : Rule × List Tree) : Rule × List Tree := (x.1, x.2.map (Tree.located p))

theorem Located.node {parts parts' : Reader (Rule × List Tree)} (h : Located p (locatedParts p) parts parts') :
    Located p (Tree.located p) (node parts) (node parts') := by
  intro c
  have hspan : ∀ stop, ((c.located p).rest.head?.map fun l => (⟨l.start, p.stop stop⟩ : Span)) =
      (c.rest.head?.map fun l => (⟨l.start, stop⟩ : Span)).map (Span.located p) := by
    intro stop
    rw [Cursor.located_rest, List.head?_map, Option.map_map, Option.map_map]
    rfl
  have hmade : ∀ rule children, Located p (Tree.located p)
      (do
        let stop ← position
        return Tree.node rule (c.rest.head?.map fun l => ⟨l.start, stop⟩) children)
      (do
        let stop ← position
        return Tree.node rule ((c.located p).rest.head?.map fun l => ⟨l.start, stop⟩)
          (children.map (Tree.located p))) := by
    refine fun rule children => located_position.bind fun stop => located_pure ?_
    rw [located_node, hspan]
  exact (h.bind fun x => hmade x.1 x.2) c

theorem Located.extend {rule : Rule} {left : Tree} {parts parts' : Reader (List Tree)}
    (h : Located p (List.map (Tree.located p)) parts parts') :
    Located p (Tree.located p) (extend rule left parts) (extend rule (left.located p) parts') := by
  refine h.bind fun ts => located_position.bind fun stop => located_pure ?_
  rw [located_node, span_located, Option.map_map, Option.map_map]
  rfl

theorem Located.rule {rule : Rule} {parts parts' : Reader (List Tree)}
    (h : Located p (List.map (Tree.located p)) parts parts') :
    Located p (Tree.located p) (Grammar.rule rule parts) (Grammar.rule rule parts') :=
  Located.node (h.bind fun _ => located_pure rfl)

end Located

end Reader

/-! ## The grammar -/

namespace Grammar

open Reader

variable {e e' operand operand' : Reader Tree} {t : Tree}

/-- Trees that a reader finds are found in their places. -/
abbrev Located (p : Layout) (e e' : Reader Tree) : Prop := Reader.Located p (Tree.located p) e e'

theorem located_tokenRule (r : Rule) (t : Tree) : (tokenRule r t).located p = tokenRule r (t.located p) := by
  unfold tokenRule
  rw [located_node, span_located]
  rfl

/-- A tree that stands alone. -/
theorem located_single (h : Located p e e') : Reader.Located p (List.map (Tree.located p))
    (do return [← e]) (do return [← e']) := h.bind fun _ => located_pure rfl

/-- A tree behind others. -/
theorem located_behind (ts : List Tree) (h : Located p e e') : Reader.Located p (List.map (Tree.located p))
    (do return ts ++ [← e]) (do return ts.map (Tree.located p) ++ [← e']) := by
  refine h.bind fun t => located_pure ?_
  rw [List.map_append]
  rfl

section Expressions

variable (h : Located p e e')

include h

theorem located_intervalRest (opening start : Tree) : Reader.Located p (locatedParts p)
    (intervalRest e opening start) (intervalRest e' (opening.located p) (start.located p)) := by
  refine located_skip_bind (h.bind fun stop => (located_token _).bind fun closing => located_pure ?_)
  unfold locatedParts
  simp only [List.map_cons, List.map_nil, located_tokenRule]

theorem located_bracketed : Located p (bracketed e) (bracketed e') := by
  refine Reader.Located.node ((located_token _).bind fun opening => Reader.Located.either
    (located_skip_bind (located_pure rfl)) (h.bind fun first => Reader.Located.either ?_ ?_))
  · refine Reader.Located.bind (located_chain (fun items => located_items .comma h items) rfl) fun items => ?_
    exact located_skip_bind (located_pure rfl)
  · exact located_intervalRest h opening first

theorem located_parenthesized : Located p (parenthesized e) (parenthesized e') :=
  Reader.Located.node ((located_token _).bind fun opening => h.bind fun first =>
    (located_intervalRest h opening first).either (located_skip_bind (located_pure rfl)))

theorem located_reversed : Located p (reversed e) (reversed e') :=
  Reader.Located.node ((located_token _).bind fun opening => h.bind fun first =>
    located_intervalRest h opening first)

theorem located_entry : Located p (entry e) (entry e') := by
  refine Reader.Located.rule ((located_token _).bind fun key => located_skip_bind (h.bind fun value =>
    located_pure ?_))
  simp only [List.map_cons, List.map_nil, located_tokenRule]

theorem located_context : Located p (context e) (context e') :=
  Reader.Located.rule (located_skip_bind (((located_entry h).separated.either (located_pure rfl)).bind fun _ =>
    located_skip_bind (located_pure rfl)))

theorem located_parameters : Located p (parameters e) (parameters e') :=
  Reader.Located.rule (located_skip_bind (((located_single h.separated.rule).either (located_pure rfl)).bind fun _ =>
    located_skip_bind (located_pure rfl)))

theorem located_primary : Located p (primary e) (primary e') := by
  refine located_oneOf_cons (located_token _) (located_oneOf_cons (located_bracketed h)
    (located_oneOf_cons (located_context h) (located_oneOf_cons (located_parenthesized h)
    (located_oneOf_cons (located_reversed h) (located_oneOf_cons ?_ (located_oneOf_cons ?_
    (located_oneOf_cons ?_ located_oneOf_nil)))))))
  · exact Reader.Located.rule (located_skip_bind (located_pure rfl))
  · exact Reader.Located.rule (located_single (located_token _))
  · exact Reader.Located.rule ((located_token _).bind fun name => located_behind [name] (located_parameters h))

/-- An operand, and whether it is a plain name, in its place. -/
theorem located_postfixStep (left : Tree × Bool) : Reader.Located p (fun x => (x.1.located p, x.2))
    (postfixStep e left) (postfixStep e' (left.1.located p, left.2)) := by
  refine located_oneOf_cons ?_ (located_oneOf_cons ?_ (located_oneOf_cons ?_ located_oneOf_nil))
  · refine Reader.Located.bind (Reader.Located.extend (located_skip_bind (h.bind fun _ => ?_)))
      fun _ => located_pure rfl
    exact located_skip_bind (located_pure rfl)
  · exact (located_single (located_parameters h)).extend.bind fun _ => located_pure rfl
  · obtain ⟨left, named⟩ := left
    cases named with
    | true => exact located_none
    | false =>
      exact (located_skip_bind (located_single (located_token _))).extend.bind fun _ => located_pure rfl

end Expressions

theorem located_qualifiedName : Located p qualifiedName qualifiedName :=
  Reader.Located.rule ((located_token _).bind fun _ =>
    located_chain (fun names => located_items .dot (located_token _) names) rfl)

theorem located_postfixLevel (h : Located p e e') : Located p (postfixLevel e) (postfixLevel e') := by
  have hfirst : Reader.Located p (fun x => (x.1.located p, x.2))
      (either (do return (← qualifiedName, true)) (do return (← primary e, false)))
      (either (do return (← qualifiedName, true)) (do return (← primary e', false))) :=
    Reader.Located.either (located_qualifiedName.bind fun _ => located_pure rfl)
      ((located_primary h).bind fun _ => located_pure rfl)
  exact hfirst.bind fun _ => (located_chain (located_postfixStep h) rfl).bind fun _ => located_pure rfl

theorem located_signs (h : Located p operand operand') (fuel : ℕ) :
    Located p (signs operand fuel) (signs operand' fuel) := by
  induction fuel with
  | zero => exact h
  | succ fuel ih =>
    exact h.either (Reader.Located.rule ((located_token _).bind fun minus => located_behind [minus] ih))

theorem located_unaryLevel (h : Located p e e') : Located p (unaryLevel e) (unaryLevel e') := by
  intro c
  have hlength : (c.located p).rest.length = c.rest.length := List.length_map _
  unfold unaryLevel
  rw [hlength]
  exact located_signs (located_postfixLevel h) _ c

/-- Operands that are joined from left to right. -/
theorem located_joined (h : Located p operand operand') {rule : Rule} {parts parts' : Reader (List Tree)}
    (hparts : Reader.Located p (List.map (Tree.located p)) parts parts') : Located p
      (do
        let first ← operand
        chain (fun left => extend rule left parts) first)
      (do
        let first ← operand'
        chain (fun left => extend rule left parts') first) :=
  h.bind fun _ => located_chain (fun _ => hparts.extend) rfl

theorem located_leftJoined (h : Located p operand operand') (operators : List Terminal) :
    Located p (leftJoined operand operators) (leftJoined operand' operators) :=
  located_joined h ((located_token _).bind fun op => located_behind [op] h)

theorem located_wordJoined (h : Located p operand operand') (k : Keyword) (r : Rule) :
    Located p (wordJoined operand k r) (wordJoined operand' k r) :=
  located_joined h (located_skip_bind (located_single h))

section Levels

variable (h : Located p e e')

include h

theorem located_sumLevel : Located p (sumLevel e) (sumLevel e') :=
  located_leftJoined (located_leftJoined (located_leftJoined (located_unaryLevel h) _) _) _

theorem located_instanceLevel : Located p (instanceLevel e) (instanceLevel e') :=
  located_joined (located_sumLevel h) (located_skip_bind (located_skip_bind (located_single
    (Reader.Located.rule (located_single (located_token _))))))

theorem located_simpleTest : Located p (simpleTest e) (simpleTest e') :=
  Reader.Located.rule ((located_token _).bind fun op => located_behind [op] (located_sumLevel h))

theorem located_tests : Located p (tests e) (tests e') :=
  Reader.Located.rule (((located_simpleTest h).either h).separated)

/-- A list of tests in parentheses, behind some words. -/
theorem located_testList (words : List Tree) : Reader.Located p (List.map (Tree.located p))
    (do
      let opening ← token [.leftParen]
      let ts ← tests e
      return words ++ [opening, ts, ← token [.rightParen]])
    (do
      let opening ← token [.leftParen]
      let ts ← tests e'
      return words.map (Tree.located p) ++ [opening, ts, ← token [.rightParen]]) := by
  refine (located_token _).bind fun opening => (located_tests h).bind fun ts => (located_token _).bind fun closing =>
    located_pure ?_
  rw [List.map_append]
  rfl

theorem located_comparisonRest : Reader.Located p (List.map (Tree.located p)) (comparisonRest e)
    (comparisonRest e') := by
  have hlevel := located_instanceLevel h
  refine located_oneOf_cons ?_ (located_oneOf_cons ?_ (located_oneOf_cons ?_ located_oneOf_nil))
  · exact (located_token _).bind fun op => located_behind [op] hlevel
  · exact (located_token _).bind fun between => hlevel.bind fun low => (located_token _).bind fun and =>
      located_behind [between, low, and] hlevel
  · exact (located_token _).bind fun word => Reader.Located.either
      (located_behind [word] ((located_simpleTest h).either hlevel)) (located_testList h [word])

theorem located_orLevel : Located p (orLevel e) (orLevel e') := by
  have hcomparison : Located p (comparisonLevel e) (comparisonLevel e') :=
    (located_instanceLevel h).fork (fun _ => located_pure rfl) fun _ => (located_comparisonRest h).extend
  exact located_wordJoined (located_wordJoined hcomparison _ _) _ _

theorem located_iterationContext : Located p (iterationContext e) (iterationContext e') :=
  Reader.Located.rule (h.fork (fun first => located_skip_bind (located_behind [first] h)) fun _ => located_pure rfl)

theorem located_inExpressions : Located p (inExpressions e) (inExpressions e') := by
  have hbinding : Located p (inExpression e) (inExpression e') := Reader.Located.rule
    ((located_token _).bind fun name => located_skip_bind (located_behind [name] (located_iterationContext h)))
  exact hbinding.separated.rule

theorem located_forExpression : Located p (forExpression e) (forExpression e') :=
  Reader.Located.rule (located_skip_bind ((located_inExpressions h).bind fun bindings =>
    located_skip_bind (located_behind [bindings] h)))

theorem located_quantifiedExpression : Located p (quantifiedExpression e) (quantifiedExpression e') :=
  Reader.Located.rule ((located_token _).bind fun quantifier => (located_inExpressions h).bind fun bindings =>
    located_skip_bind (located_behind [quantifier, bindings] h))

theorem located_ifExpression : Located p (ifExpression e) (ifExpression e') :=
  Reader.Located.rule (Reader.Located.fork
    (located_skip_bind (h.bind fun condition => located_skip_bind (located_behind [condition] h)))
    (fun parts => located_skip_bind (located_behind parts h)) fun _ => located_pure rfl)

theorem located_expressionLevel : Located p (expressionLevel e) (expressionLevel e') :=
  located_oneOf_cons (located_forExpression h) (located_oneOf_cons (located_quantifiedExpression h)
    (located_oneOf_cons (located_ifExpression h) (located_oneOf_cons (located_orLevel h) located_oneOf_nil)))

theorem located_unaryTests : Located p (unaryTests e) (unaryTests e') :=
  Reader.Located.rule (located_oneOf_cons (located_single (located_tests h)) (located_oneOf_cons
    ((located_token _).bind fun word => located_testList h [word]) (located_oneOf_cons
    (located_single (Reader.Located.rule (located_single (located_token _)))) located_oneOf_nil)))

end Levels

/-- **Expressions are read alike at all places.** -/
theorem located_expression (fuel : ℕ) : Located p (expression fuel) (expression fuel) := by
  induction fuel with
  | zero => exact located_none
  | succ fuel ih => exact located_expressionLevel ih

end Grammar

/-! ## Whole sources -/

/-- Some tokens told by their kinds: each stands where its number says. -/
def numbered (kinds : List Terminal) : List Lexeme := kinds.mapIdx fun i k => ⟨k, "", i, i + 1⟩

theorem numbered_ordered (kinds : List Terminal) : (0 :: (numbered kinds).map (·.stop)).Pairwise (· < ·) := by
  have hstops : (numbered kinds).map (·.stop) = (List.range kinds.length).map (· + 1) := by
    refine List.ext_getElem (by simp [numbered]) fun i hi hi' => ?_
    simp [numbered]
  rw [hstops, List.pairwise_cons]
  refine ⟨fun n hn => ?_, ?_⟩
  · obtain ⟨i, -, rfl⟩ := List.mem_map.1 hn
    exact Nat.succ_pos i
  · exact List.pairwise_lt_range.map _ fun _ _ h => Nat.succ_lt_succ h

/-- The tree of some tokens that are told by their kinds, if they have one. -/
def outline (unary : Bool) (kinds : List Terminal) : Option Tree := (readings unary (numbered kinds)).complete?

/-- The readings of tokens in their places. -/
theorem readings_located (hp : p.stop 0 = 0) (unary : Bool) (ls : List Lexeme) :
    readings unary (ls.map (Lexeme.located p)) = (readings unary ls).located p (Tree.located p) := by
  have he := Grammar.located_expression (p := p) (ls.length + 1)
  have hcursor : (⟨0, ls.map (Lexeme.located p)⟩ : Cursor) = Cursor.located p ⟨0, ls⟩ := by
    unfold Cursor.located
    rw [hp]
  unfold readings
  rw [List.length_map, hcursor]
  cases unary with
  | true => exact Grammar.located_unaryTests he _
  | false => exact Reader.Located.rule he.separated _

theorem complete_of_located (x : Readings Tree) :
    (x.located p (Tree.located p)).complete? = x.complete?.map (Tree.located p) := by
  obtain ⟨xs, reached⟩ := x
  unfold Readings.complete? Readings.located
  dsimp only
  rw [List.find?_map, Option.map_map, Option.map_map]
  have hempty : ((fun y : Tree × Cursor => y.2.rest.isEmpty) ∘
      fun y : Tree × Cursor => (y.1.located p, y.2.located p)) = fun y => y.2.rest.isEmpty := by
    funext y
    show (y.2.rest.map (Lexeme.located p)).isEmpty = y.2.rest.isEmpty
    cases y.2.rest <;> rfl
  rw [hempty]
  rfl

theorem stopAfter_take (ls : List Lexeme) {i : ℕ} (hi : i < ls.length) :
    Cursor.stopAfter 0 (ls.take (i + 1)) = ls[i].stop := by
  rw [List.take_succ_eq_append_getElem hi, Cursor.stopAfter, List.getLast?_concat]
  rfl

namespace Layout

/-- How some tokens are located. Behind the last one, places go on one by one. -/
def ofLexemes (ls : List Lexeme) (h : (0 :: ls.map (·.stop)).Pairwise (· < ·)) : Layout where
  start i := (ls[i]?.map (·.start)).getD i
  stop i := Cursor.stopAfter 0 (ls.take i) + (i - ls.length)
  text i := (ls[i]?.map (·.text)).getD ""
  stop_lt := by
    refine strictMono_nat_of_lt_succ fun i => ?_
    by_cases hi : i < ls.length
    · -- the next place is the end of the token with this number
      have hnext := stopAfter_take ls hi
      have hpasses : Cursor.Passes ⟨0, ls⟩ (ls.take i) ⟨Cursor.stopAfter 0 (ls.take i), ls.drop i⟩ :=
        ⟨(List.take_append_drop i ls).symm, rfl⟩
      have hordered := Cursor.Ordered.passes (c := ⟨0, ls⟩) h hpasses
      have hmem : ls[i].stop ∈ (ls.drop i).map (·.stop) := by
        rw [List.drop_eq_getElem_cons hi]
        exact List.mem_cons_self
      have hlt := (List.pairwise_cons.1 hordered).1 _ hmem
      dsimp only at hlt
      omega
    · rw [List.take_of_length_le (Nat.le_of_not_lt hi), List.take_of_length_le (by omega)]
      omega

theorem stop_zero {ls : List Lexeme} (h : (0 :: ls.map (·.stop)).Pairwise (· < ·)) :
    (ofLexemes ls h).stop 0 = 0 := by
  show Cursor.stopAfter 0 (ls.take 0) + (0 - ls.length) = 0
  rw [List.take_zero, Nat.zero_sub]
  rfl

/-- Tokens are their numbers in their places. -/
theorem numbered_located {ls : List Lexeme} (h : (0 :: ls.map (·.stop)).Pairwise (· < ·)) :
    (numbered (ls.map (·.kind))).map (Lexeme.located (ofLexemes ls h)) = ls := by
  refine List.ext_getElem (by simp [numbered]) fun i hi hi' => ?_
  have hstop : (ofLexemes ls h).stop (i + 1) = ls[i].stop := by
    have hnext := stopAfter_take ls hi'
    show Cursor.stopAfter 0 (ls.take (i + 1)) + (i + 1 - ls.length) = ls[i].stop
    omega
  simp only [numbered, List.getElem_map, List.getElem_mapIdx, Lexeme.located, hstop]
  simp [ofLexemes, hi']

end Layout

/-- **The tree of some tokens is the outline of their kinds, located.** -/
theorem complete_located (unary : Bool) {ls : List Lexeme} (h : (0 :: ls.map (·.stop)).Pairwise (· < ·)) :
    (readings unary ls).complete? =
      (outline unary (ls.map (·.kind))).map (Tree.located (Layout.ofLexemes ls h)) := by
  have hread := readings_located (Layout.stop_zero h) unary (numbered (ls.map (·.kind)))
  rw [Layout.numbered_located h] at hread
  rw [hread, complete_of_located]
  rfl

/-- The tree of a source, if its tokens have one. -/
theorem parse_of_tokens {unary : Bool} {source : String} {ls : List Lexeme}
    (h : Tokens unary 0 source.toList ls) : (parse unary source).toOption =
      (outline unary (ls.map (·.kind))).map (Tree.located (Layout.ofLexemes ls h.ordered)) := by
  rw [← complete_located unary h.ordered]
  have hlex := lex_eq_iff.2 h
  unfold parse
  dsimp only
  rw [hlex]
  cases (readings unary ls).complete? <;> rfl

/-! ## Trees without places -/

/-- A tree without its places: the rules, and the kinds and texts of the tokens. -/
def Tree.unplaced : Tree → Tree
  | .token t => .token ⟨t.kind, t.text, none⟩
  | .node rule _ children => .node rule none (unplacedTrees children)
where
  unplacedTrees : List Tree → List Tree
    | [] => []
    | t :: rest => t.unplaced :: unplacedTrees rest

mutual

/-- Without its places, a tree only shows how its tokens are written. -/
theorem unplaced_located {q : Layout} (h : p.text = q.text) : ∀ t : Tree,
    (t.located p).unplaced = (t.located q).unplaced
  | .token t => by
    simp only [Tree.located, Tree.unplaced, Token.located, h]
  | .node rule span children => by
    rw [Tree.located, Tree.located, Tree.unplaced, Tree.unplaced, unplaced_locatedTrees h children]

theorem unplaced_locatedTrees {q : Layout} (h : p.text = q.text) : ∀ ts : List Tree,
    Tree.unplaced.unplacedTrees (Tree.located.locatedTrees p ts) =
      Tree.unplaced.unplacedTrees (Tree.located.locatedTrees q ts)
  | [] => rfl
  | t :: rest => by
    rw [Tree.located.locatedTrees, Tree.located.locatedTrees, Tree.unplaced.unplacedTrees,
      Tree.unplaced.unplacedTrees, unplaced_located h t, unplaced_locatedTrees h rest]

end

/-- The kind and the text of a token. -/
def Lexeme.face (l : Lexeme) : Terminal × String := (l.kind, l.text)

/-- **Sources whose tokens have the same kinds and texts have the same tree**, but for its places. -/
theorem parse_unplaced {unary : Bool} {source source' : String} {ls ls' : List Lexeme}
    (h : Tokens unary 0 source.toList ls) (h' : Tokens unary 0 source'.toList ls')
    (hfaces : ls'.map Lexeme.face = ls.map Lexeme.face) :
    (parse unary source').toOption.map Tree.unplaced = (parse unary source).toOption.map Tree.unplaced := by
  have hkinds := congrArg (List.map Prod.fst) hfaces
  have htexts := congrArg (List.map Prod.snd) hfaces
  rw [List.map_map, List.map_map] at hkinds htexts
  change ls'.map (·.kind) = ls.map (·.kind) at hkinds
  change ls'.map (·.text) = ls.map (·.text) at htexts
  have htext : (Layout.ofLexemes ls' h'.ordered).text = (Layout.ofLexemes ls h.ordered).text := by
    funext i
    have hi := congrArg (·[i]?) htexts
    simp only [List.getElem?_map] at hi
    show (ls'[i]?.map (·.text)).getD "" = (ls[i]?.map (·.text)).getD ""
    rw [hi]
  rw [parse_of_tokens h, parse_of_tokens h', hkinds, Option.map_map, Option.map_map]
  refine congrArg (Option.map · _) (funext fun t => ?_)
  exact unplaced_located htext t

end Criterion

import Criterion.Proofs.Longest

/-!
# Where there is one reading

Most readers are blocked by the token at their place, which is of no kind that they start with. Where all
ways but one are blocked there is at most one reading, and no order of alternatives has to be weighed.

* `Reader.Sole`, `Reader.Blocked`: a reader has one reading, or none.
* `Reader.steps_row`: a chain of items with commas between them has more readings, but all except the
  longest end before a comma.
* `Grammar.expression_blocked`: no expression starts with what ends one.
* `Grammar.sole_expression`, `Grammar.sole_negative_expression`: **what a primary expression is read as,
  an expression is read as**, also behind a minus sign, where a token that ends it follows.
* `Grammar.sole_list`, `Grammar.sole_context`: lists and contexts are read up to the bracket that closes
  them.
-/

namespace Criterion

open Readings

variable {α β : Type}

/-- The token at a place, if there is one, is of one of some kinds. -/
def Cursor.HeadIn (c : Cursor) (kinds : List Terminal) : Prop := ∀ l ∈ c.rest.head?, l.kind ∈ kinds

theorem Cursor.headIn_of_rest {c : Cursor} {l : Lexeme} {rest : List Lexeme} {kinds : List Terminal}
    (hc : c.rest = l :: rest) (hl : l.kind ∈ kinds) : c.HeadIn kinds := by
  intro k hk
  rw [hc] at hk
  cases hk
  exact hl

theorem Cursor.HeadIn.mono {c : Cursor} {kinds kinds' : List Terminal} (h : c.HeadIn kinds)
    (hkinds : kinds ⊆ kinds') : c.HeadIn kinds' := fun l hl => hkinds (h l hl)

/-- No two dots come from a place on. -/
def Cursor.Undotted (c : Cursor) : Prop := ∀ l ∈ c.rest, l.kind ≠ .dots

theorem Cursor.Undotted.passes {c d : Cursor} {w : List Lexeme} (h : c.Undotted)
    (hw : c.Passes w d) : d.Undotted := by
  intro l hl
  refine h l ?_
  rw [hw.rest]
  exact List.mem_append_right w hl

/-- Two dots come neither among some tokens nor behind them. -/
theorem Cursor.Passes.undotted {c d : Cursor} {w : List Lexeme} (h : c.Passes w d)
    (hw : ∀ l ∈ w, l.kind ≠ .dots) (hd : d.Undotted) : c.Undotted := by
  intro l hl
  rw [h.rest] at hl
  exact (List.mem_append.1 hl).elim (hw l) (hd l)

theorem Cursor.Undotted.head {c : Cursor} (h : c.Undotted) : ∀ l ∈ c.rest.head?, l.kind ≠ .dots :=
  fun l hl => h l (List.mem_of_mem_head? hl)

theorem Cursor.Passes.lt_stop {c d : Cursor} {l : Lexeme} {w : List Lexeme}
    (h : c.Passes (l :: w) d) (ho : c.Ordered) : c.stop < d.stop := by
  obtain ⟨x, hfirst, hrest⟩ := Cursor.Passes.split (u := [l]) h
  have hlt : c.stop < x.stop := by
    rw [hfirst.stop]
    exact (List.pairwise_cons.1 ho).1 l.stop (by rw [h.rest]; exact List.mem_cons_self)
  exact hlt.trans_le (hrest.le_stop (ho.passes hfirst))

/-- The place behind some tokens is the end of the last one. -/
theorem Cursor.Passes.eq_mk {c d : Cursor} {w : List Lexeme} {l : Lexeme}
    (h : c.Passes (w ++ [l]) d) : d = ⟨l.stop, d.rest⟩ := by
  have hstop : d.stop = l.stop := by
    rw [h.stop, Cursor.stopAfter_append]
    rfl
  rw [← hstop]

namespace Reader

/-- The only reading at a place. -/
def Sole (r : Reader α) (c : Cursor) (a : α) (d : Cursor) : Prop := (r c).found = [(a, d)]

/-- There is no reading at a place. -/
def Blocked (r : Reader α) (c : Cursor) : Prop := (r c).found = []

section Sole

variable {r s : Reader α} {f g : α → Reader β} {a : α} {b : β} {c d e : Cursor}

theorem sole_pure (a : α) (c : Cursor) : (pure a : Reader α).Sole c a c := rfl

/-- What is read after the only reading. -/
theorem bind_found (h : r.Sole c a d) (f : α → Reader β) :
    ((r >>= f) c).found = (f a d).found.foldl (fun found x => insert x found) [] := by
  change ((r c).bind f).found = _
  unfold Readings.bind
  rw [h]
  rfl

theorem Sole.bind (h : r.Sole c a d) (hf : (f a).Sole d b e) : (r >>= f).Sole c b e := by
  unfold Sole
  rw [bind_found h, hf]
  rfl

theorem Sole.bind_blocked (h : r.Sole c a d) (hf : (f a).Blocked d) : (r >>= f).Blocked c := by
  unfold Blocked
  rw [bind_found h, hf]
  rfl

theorem Blocked.bind (h : r.Blocked c) (f : α → Reader β) : (r >>= f).Blocked c :=
  bind_found_nil h f

/-- Where all that comes after is blocked, all is. -/
theorem blocked_bind (hf : ∀ y ∈ (r c).found, (f y.1).Blocked y.2) : (r >>= f).Blocked c := by
  refine List.eq_nil_iff_forall_not_mem.2 fun z hz => ?_
  obtain ⟨y, hy, hz⟩ := of_mem_bind hz
  rw [hf y hy] at hz
  exact absurd hz List.not_mem_nil

/-- Where only the first reading can go on, it alone does. -/
theorem sole_bind_first {others : List (α × Cursor)} (h : (r c).found = (a, d) :: others)
    (hf : (f a).Sole d b e) (hothers : ∀ y ∈ others, (f y.1).Blocked y.2) :
    (r >>= f).Sole c b e := by
  have hkept : ∀ (others : List (α × Cursor)) (all : Readings β),
      (∀ y ∈ others, (f y.1).Blocked y.2) →
        (others.foldl (fun all y => all.union (f y.1 y.2)) all).found = all.found := by
    intro others
    induction others with
    | nil => exact fun _ _ => rfl
    | cons y others ih =>
      intro all hothers
      obtain ⟨hy, hrest⟩ := List.forall_mem_cons.1 hothers
      have hunion : (all.union (f y.1 y.2)).found = all.found := by
        unfold union
        rw [hy]
        rfl
      rw [List.foldl_cons, ih _ hrest, hunion]
  change ((r c).bind f).found = _
  unfold Readings.bind
  rw [h, List.foldl_cons, hkept others _ hothers]
  unfold union
  dsimp only
  rw [hf]
  rfl

theorem Sole.either_left (h : r.Sole c a d) (hs : s.Blocked c) : (either r s).Sole c a d := by
  unfold Sole either union
  rw [h, hs]
  rfl

theorem Sole.either_right (hr : r.Blocked c) (h : s.Sole c a d) : (either r s).Sole c a d := by
  unfold Sole either union
  rw [h, hr]
  rfl

theorem Blocked.either (hr : r.Blocked c) (hs : s.Blocked c) : (either r s).Blocked c := by
  unfold Blocked Reader.either union
  rw [hr, hs]
  rfl

theorem Blocked.fork (hr : r.Blocked c) (f g : α → Reader β) : (fork r f g).Blocked c :=
  Blocked.either (r := r >>= f) (s := r >>= g) (hr.bind f) (hr.bind g)

/-- Of two ways after the only reading one is blocked. -/
theorem Sole.fork (h : r.Sole c a d) (hf : (f a).Sole d b e) (hg : (g a).Blocked d) :
    (fork r f g).Sole c b e :=
  Sole.either_left (r := r >>= f) (s := r >>= g) (h.bind hf) (h.bind_blocked hg)

theorem blocked_oneOf {rs : List (Reader α)} (h : ∀ r ∈ rs, r.Blocked c) : (oneOf rs).Blocked c := by
  induction rs with
  | nil => rfl
  | cons r rs ih =>
    obtain ⟨hr, hrs⟩ := List.forall_mem_cons.1 h
    exact hr.either (ih hrs)

/-- One of several readers has a reading, and the others are blocked. -/
theorem Sole.oneOf (before after : List (Reader α)) (h : r.Sole c a d)
    (hbefore : ∀ s ∈ before, s.Blocked c) (hafter : ∀ s ∈ after, s.Blocked c) :
    (oneOf (before ++ r :: after)).Sole c a d := by
  induction before with
  | nil => exact h.either_left (blocked_oneOf hafter)
  | cons s before ih =>
    obtain ⟨hs, hbefore⟩ := List.forall_mem_cons.1 hbefore
    exact Sole.either_right hs (ih hbefore)

end Sole

/-! ## Tokens and rules -/

section Tokens

variable {c d : Cursor} {l : Lexeme} {rest : List Lexeme} {kinds starts : List Terminal}

theorem sole_token (hc : c.rest = l :: rest) (hl : l.kind ∈ kinds) :
    (token kinds).Sole c (.token l.token) ⟨l.stop, rest⟩ := by
  unfold Sole token
  rw [hc]
  simp [hl]

theorem sole_skip {kind : Terminal} (hc : c.rest = l :: rest) (hl : l.kind = kind) :
    (skip kind).Sole c () ⟨l.stop, rest⟩ :=
  (sole_token hc (List.mem_singleton.2 hl)).bind (sole_pure () _)

theorem blocked_token (h : ∀ l ∈ c.rest.head?, l.kind ∉ kinds) : (token kinds).Blocked c := by
  unfold Blocked token
  cases hrest : c.rest with
  | nil => rfl
  | cons l rest =>
    have hl : l.kind ∉ kinds := h l (by rw [hrest]; rfl)
    simp [hl]

theorem blocked_skip {kind : Terminal} (h : ∀ l ∈ c.rest.head?, l.kind ≠ kind) :
    (skip kind).Blocked c :=
  (blocked_token fun l hl => mt List.mem_singleton.1 (h l hl)).bind _

theorem Sole.node {parts : Reader (Rule × List Tree)} {rule : Rule} {ts : List Tree}
    (h : parts.Sole c (rule, ts) d) : ∃ span, (node parts).Sole c (.node rule span ts) d := by
  refine ⟨c.rest.head?.map fun l => ⟨l.start, d.stop⟩, ?_⟩
  have hposition : position.Sole d d.stop d := rfl
  exact h.bind (hposition.bind (sole_pure _ d))

theorem Blocked.node {parts : Reader (Rule × List Tree)} (h : parts.Blocked c) :
    (node parts).Blocked c := h.bind _

theorem Sole.rule {parts : Reader (List Tree)} {ts : List Tree} (r : Rule) (h : parts.Sole c ts d) :
    ∃ span, (Grammar.rule r parts).Sole c (.node r span ts) d :=
  Sole.node (h.bind (sole_pure _ d))

theorem Blocked.rule {parts : Reader (List Tree)} (h : parts.Blocked c) (r : Rule) :
    (Grammar.rule r parts).Blocked c := (h.bind _).node

theorem Blocked.extend {parts : Reader (List Tree)} (h : parts.Blocked c) (r : Rule) (left : Tree) :
    (extend r left parts).Blocked c := h.bind _

end Tokens

/-! ## Chains -/

section Chains

variable {step : α → Reader α} {item : Reader α} {P : List Lexeme → α → Prop} {a : α}
  {as : List α} {c d : Cursor}

/-- A chain whose next step is blocked is at its end. -/
theorem sole_chain (h : (step a).Blocked c) : (chain step a).Sole c a c := by
  have hsteps : ∀ n, (steps step n a).Sole c a c := by
    intro n
    cases n with
    | zero => exact sole_pure a c
    | succ n => exact Sole.either_right (h.bind _) (sole_pure a c)
  exact hsteps c.rest.length

/-- One part, and no step of a chain behind it. -/
theorem Sole.chained {r : Reader α} (hr : r.Sole c a d) (h : (step a).Blocked d) :
    (do
      let first ← r
      chain step first : Reader α).Sole c a d := hr.bind (sole_chain h)

/-- A step of a list: a comma and an item. -/
def itemStep (item : Reader α) (items : List α) : Reader (List α) := do
  skip .comma
  let next ← item
  return items ++ [next]

/-- Items with a comma before each, and no comma behind them. -/
inductive Row (item : Reader α) : Cursor → List α → Cursor → Prop where
  | nil {c : Cursor} : (∀ l ∈ c.rest.head?, l.kind ≠ .comma) → Row item c [] c
  | cons {c d e : Cursor} {l : Lexeme} {rest : List Lexeme} {a : α} {as : List α} :
    c.rest = l :: rest → l.kind = .comma → item.Sole ⟨l.stop, rest⟩ a d → Row item d as e →
      Row item c (a :: as) e

/-- Readings that are sorted stay as they are. -/
theorem foldl_insert_sorted {found more : List (α × Cursor)} (h : Descending (found ++ more)) :
    more.foldl (fun found x => Readings.insert x found) found = found ++ more := by
  have hlast : ∀ (found : List (α × Cursor)) (x : α × Cursor),
      (∀ y ∈ found, x.2.stop < y.2.stop) → Readings.insert x found = found ++ [x] := by
    intro found x
    induction found with
    | nil => exact fun _ => rfl
    | cons y found ih =>
      intro h
      obtain ⟨hy, hfound⟩ := List.forall_mem_cons.1 h
      unfold Readings.insert
      rw [if_neg (by omega), if_neg (by omega), ih hfound, List.cons_append]
  induction more generalizing found with
  | nil => exact (List.append_nil _).symm
  | cons x more ih =>
    have hbefore : ∀ y ∈ found, x.2.stop < y.2.stop := fun y hy =>
      (List.pairwise_append.1 h).2.2 y hy x List.mem_cons_self
    rw [List.foldl_cons, hlast found x hbefore, ih (by simpa using h), List.append_assoc]
    rfl

theorem descending_steps (step : α → Reader α) (n : ℕ) (a : α) (c : Cursor) :
    Descending (steps step n a c).found := by
  cases n with
  | zero => exact List.pairwise_singleton _ _
  | succ n => exact descending_union (descending_bind _ _) _

/-- The first reading stays in front of one that ends no later. -/
theorem insert_behind (x y : α × Cursor) (found : List (α × Cursor)) (h : x.2.stop ≤ y.2.stop) :
    ∃ others, Readings.insert x (y :: found) = y :: others ∧ ∀ z ∈ others, z = x ∨ z ∈ found := by
  unfold Readings.insert
  rw [if_neg (by omega)]
  split
  · exact ⟨found, rfl, fun z hz => .inr hz⟩
  · exact ⟨Readings.insert x found, rfl, fun z hz => of_mem_insert hz⟩

/-- **A chain of items has all of them for its longest reading**; every shorter one ends before a comma. -/
theorem steps_row (hitem : item.Yields P) (h : Row item c as d) : ∀ (n : ℕ) (items : List α),
    c.Ordered → c.rest.length ≤ n → c.stop ≤ d.stop ∧
      ∃ others, (steps (itemStep item) n items c).found = (items ++ as, d) :: others ∧
        ∀ y ∈ others, ∃ l ∈ y.2.rest.head?, l.kind = .comma := by
  induction h with
  | @nil c hend =>
    intro n items ho hn
    have hblocked : (itemStep item items).Blocked c := (blocked_skip hend).bind _
    have hsole : (steps (itemStep item) n items).Sole c items c := by
      cases n with
      | zero => exact sole_pure items c
      | succ n => exact Sole.either_right (hblocked.bind _) (sole_pure items c)
    refine ⟨le_rfl, [], ?_, List.forall_mem_nil _⟩
    rw [List.append_nil]
    exact hsole
  | @cons c d e l rest a as hc hl hfirst hrow ih =>
    intro n items ho hn
    have hstep : (itemStep item items).Sole c (items ++ [a]) d :=
      (sole_skip hc hl).bind (hfirst.bind (sole_pure _ d))
    -- the item uses tokens behind the comma only
    obtain ⟨w, hw, -⟩ := (hitem ⟨l.stop, rest⟩).spans (a, d) (by rw [hfirst]; exact List.mem_singleton_self _)
    have hcomma : Cursor.Passes c [l] ⟨l.stop, rest⟩ := .singleton hc
    have hpasses := hcomma.trans hw
    have hrest : rest = w ++ d.rest := hw.rest
    obtain ⟨m, rfl⟩ : ∃ m, n = m + 1 := by
      rw [hc, List.length_cons] at hn
      exact ⟨n - 1, by omega⟩
    have hlength : d.rest.length ≤ m := by
      rw [hc, hrest, List.length_cons, List.length_append] at hn
      omega
    obtain ⟨hstop, others, hfound, hothers⟩ :=
      ih m (items ++ [a]) (ho.passes hpasses) hlength
    have hlt : c.stop ≤ d.stop := hpasses.le_stop ho
    have hlonger : ((do
        let b ← itemStep item items
        steps (itemStep item) m b : Reader (List α)) c).found = (items ++ a :: as, e) :: others := by
      have hsorted : Descending ([] ++ (steps (itemStep item) m (items ++ [a]) d).found) :=
        descending_steps (itemStep item) m (items ++ [a]) d
      rw [bind_found hstep, foldl_insert_sorted hsorted, List.nil_append, hfound, List.append_assoc]
      rfl
    have hle : c.stop ≤ e.stop := hlt.trans hstop
    obtain ⟨others', hinsert, hothers'⟩ := insert_behind (items, c) (items ++ a :: as, e) others hle
    refine ⟨hle, others', ?_, fun y hy => ?_⟩
    · unfold steps either union
      rw [hlonger]
      exact hinsert
    · rcases hothers' y hy with rfl | hy
      · exact ⟨l, by rw [hc]; rfl, hl⟩
      · exact hothers y hy

/-- Behind all items of a chain the only reading goes on, if nothing goes on before a comma. -/
theorem sole_row {b : β} {e : Cursor} {f : List α → Reader β} {items : List α}
    (hitem : item.Yields P) (h : Row item c as d) (ho : c.Ordered) (hf : (f (items ++ as)).Sole d b e)
    (hcomma : ∀ (xs : List α) (x : Cursor), (∃ l ∈ x.rest.head?, l.kind = .comma) → (f xs).Blocked x) :
    (do
      let xs ← chain (itemStep item) items
      f xs : Reader β).Sole c b e := by
  obtain ⟨-, others, hfound, hothers⟩ := steps_row hitem h c.rest.length items ho le_rfl
  exact sole_bind_first hfound hf fun y hy => hcomma y.1 y.2 (hothers y hy)

/-- **Items with commas between them have all of them for their longest reading.** -/
theorem separated_row (hitem : item.Yields P) (ho : c.Ordered) (hfirst : item.Sole c a d)
    {e : Cursor} (h : Row item d as e) : c.stop ≤ e.stop ∧
      ∃ others, (separated item c).found = (a :: as, e) :: others ∧
        ∀ y ∈ others, ∃ l ∈ y.2.rest.head?, l.kind = .comma := by
  obtain ⟨w, hw, -⟩ := (hitem c).spans (a, d) (by rw [hfirst]; exact List.mem_singleton_self _)
  obtain ⟨hstop, others, hfound, hothers⟩ := steps_row hitem h d.rest.length [a] (ho.passes hw) le_rfl
  refine ⟨(hw.le_stop ho).trans hstop, others, ?_, hothers⟩
  have hsorted : Descending ([] ++ (chain (itemStep item) [a] d).found) := descending_steps _ _ _ _
  have hfound : (chain (itemStep item) [a] d).found = (a :: as, e) :: others := hfound
  change (((item >>= fun first => chain (itemStep item) [first]) : Reader (List α)) c).found = _
  rw [bind_found hfirst, foldl_insert_sorted hsorted, List.nil_append, hfound]

/-- Nothing is read only where the first reader has no longer reading. -/
theorem either_pure_first {r : Reader α} {b : α} {others : List (α × Cursor)}
    (h : (r c).found = (a, d) :: others) (hle : c.stop ≤ d.stop) :
    ∃ others', (either r (pure b) c).found = (a, d) :: others' ∧
      ∀ y ∈ others', y = (b, c) ∨ y ∈ others := by
  obtain ⟨others', hinsert, hothers'⟩ := insert_behind (b, c) (a, d) others hle
  refine ⟨others', ?_, hothers'⟩
  unfold either union
  rw [h]
  exact hinsert

end Chains

end Reader

/-! ## Expressions -/

namespace Grammar

open Reader

/-- The tokens that end an element of a list or of a context. -/
def closers : List Terminal := [.comma, .rightBracket, .rightBrace]

/-- The tokens that are literals. -/
def literalTokens : List Terminal :=
  [.number, .string, .keyword .trueWord, .keyword .falseWord, .keyword .nullWord]

/-- The tokens that a literal, a list or a context starts with. -/
def literalStarts : List Terminal := literalTokens ++ [.leftBracket, .leftBrace]

/-- The tokens that a filter, a call or a path behind an operand starts with. -/
def tailStarts : List Terminal := [.leftBracket, .leftParen, .dot]

/-- The words that a loop or a choice starts with. -/
def loopWords : List Terminal :=
  [.keyword .forWord, .keyword .everyWord, .keyword .someWord, .keyword .ifWord]

section Levels

variable {e : Reader Tree} {c d : Cursor} {t : Tree} {starts : List Terminal}

theorem avoids (h : c.HeadIn starts) {kinds : List Terminal} (hkinds : ∀ k ∈ starts, k ∉ kinds) :
    ∀ l ∈ c.rest.head?, l.kind ∉ kinds := fun l hl => hkinds _ (h l hl)

theorem avoids_one (h : c.HeadIn starts) {kind : Terminal} (hkind : kind ∉ starts) :
    ∀ l ∈ c.rest.head?, l.kind ≠ kind := by
  rintro l hl rfl
  exact hkind (h l hl)

/-! ### Operators -/

theorem leftJoined_blocked {operand : Reader Tree} (h : operand.Blocked c) (ops : List Terminal) :
    (leftJoined operand ops).Blocked c := h.bind _

theorem sole_leftJoined {operand : Reader Tree} (h : operand.Sole c t d) {ops : List Terminal}
    (hd : ∀ l ∈ d.rest.head?, l.kind ∉ ops) : (leftJoined operand ops).Sole c t d :=
  h.chained (((blocked_token hd).bind _).extend _ _)

theorem wordJoined_blocked {operand : Reader Tree} (h : operand.Blocked c) (k : Keyword) (r : Rule) :
    (wordJoined operand k r).Blocked c := h.bind _

theorem sole_wordJoined {operand : Reader Tree} (h : operand.Sole c t d) {k : Keyword} (r : Rule)
    (hd : ∀ l ∈ d.rest.head?, l.kind ≠ .keyword k) : (wordJoined operand k r).Sole c t d :=
  h.chained (((blocked_skip hd).bind _).extend _ _)

/-- Without an operand there is no expression of operators. -/
theorem orLevel_blocked (h : (unaryLevel e).Blocked c) : (orLevel e).Blocked c := by
  have hsum : (sumLevel e).Blocked c :=
    leftJoined_blocked (leftJoined_blocked (leftJoined_blocked h _) _) _
  have hinstance : (instanceLevel e).Blocked c := hsum.bind _
  exact wordJoined_blocked (wordJoined_blocked (hinstance.fork _ _) _ _) _ _

/-- The tokens that a comparison goes on with behind its first operand. -/
def comparisonStarts : List Terminal :=
  [.equal, .differs, .atMost, .atLeast, .less, .greater, .keyword .betweenWord, .keyword .inWord]

theorem comparisonRest_blocked (hc : ∀ l ∈ c.rest.head?, l.kind ∉ comparisonStarts) :
    (comparisonRest e).Blocked c := by
  have htoken : ∀ {kinds}, kinds ⊆ comparisonStarts → (token kinds).Blocked c := fun hkinds =>
    blocked_token fun l hl hkind => hc l hl (hkinds hkind)
  refine blocked_oneOf fun r hr => ?_
  simp only [List.mem_cons, List.not_mem_nil, or_false] at hr
  rcases hr with rfl | rfl | rfl
  · exact (htoken (by decide)).bind _
  · exact (htoken (by decide)).bind _
  · exact (htoken (by decide)).bind _

/-- **An operand is a whole expression where a token follows that ends it.** -/
theorem sole_orLevel (h : (unaryLevel e).Sole c t d) (hd : d.HeadIn closers) :
    (orLevel e).Sole c t d := by
  have hsum : (sumLevel e).Sole c t d :=
    sole_leftJoined (sole_leftJoined (sole_leftJoined h (avoids hd (by decide)))
      (avoids hd (by decide))) (avoids hd (by decide))
  have hinstance : (instanceLevel e).Sole c t d :=
    hsum.chained (((blocked_skip (avoids_one hd (by decide))).bind _).extend _ _)
  have hcomparison : (comparisonLevel e).Sole c t d :=
    hinstance.fork (sole_pure t d) ((comparisonRest_blocked (avoids hd (by decide))).extend _ _)
  exact sole_wordJoined (sole_wordJoined hcomparison _ (avoids_one hd (by decide))) _
    (avoids_one hd (by decide))

/-- Loops and choices start with a word of their own. -/
theorem loops_blocked (hc : ∀ l ∈ c.rest.head?, l.kind ∉ loopWords) :
    ∀ r ∈ [forExpression e, quantifiedExpression e, ifExpression e], r.Blocked c := by
  have hword : ∀ k, .keyword k ∈ loopWords → ∀ l ∈ c.rest.head?, l.kind ≠ .keyword k := by
    intro k hk l hl hkind
    exact hc l hl (hkind ▸ hk)
  intro r hr
  simp only [List.mem_cons, List.not_mem_nil, or_false] at hr
  rcases hr with rfl | rfl | rfl
  · exact ((blocked_skip (hword _ (by decide))).bind _).rule _
  · have hquantifier : ∀ l ∈ c.rest.head?,
        l.kind ∉ [Terminal.keyword .everyWord, .keyword .someWord] := by
      intro l hl hkind
      exact hc l hl (List.Subset.trans (by decide) (List.Subset.refl loopWords) hkind)
    exact ((blocked_token hquantifier).bind _).rule _
  · exact (Blocked.fork ((blocked_skip (hword _ (by decide))).bind _) _ _).rule _

theorem expressionLevel_blocked (h : (unaryLevel e).Blocked c)
    (hc : ∀ l ∈ c.rest.head?, l.kind ∉ loopWords) : (expressionLevel e).Blocked c := by
  refine blocked_oneOf fun r hr => ?_
  have hr : r ∈ [forExpression e, quantifiedExpression e, ifExpression e] ++ [orLevel e] := hr
  rcases List.mem_append.1 hr with hr | hr
  · exact loops_blocked hc r hr
  · rw [List.mem_singleton.1 hr]
    exact orLevel_blocked h

theorem sole_expressionLevel (h : (unaryLevel e).Sole c t d)
    (hc : ∀ l ∈ c.rest.head?, l.kind ∉ loopWords) (hd : d.HeadIn closers) :
    (expressionLevel e).Sole c t d :=
  Sole.oneOf [forExpression e, quantifiedExpression e, ifExpression e] [] (sole_orLevel h hd)
    (loops_blocked hc) (List.forall_mem_nil _)

/-! ### Signs and what follows a primary expression -/

theorem sole_signs {operand : Reader Tree} (h : operand.Sole c t d)
    (hc : ∀ l ∈ c.rest.head?, l.kind ≠ .minus) (n : ℕ) : (signs operand n).Sole c t d := by
  cases n with
  | zero => exact h
  | succ n =>
    have hminus : (token [.minus]).Blocked c :=
      blocked_token fun l hl => mt List.mem_singleton.1 (hc l hl)
    exact h.either_left ((hminus.bind _).rule _)

theorem signs_blocked {operand : Reader Tree} (h : operand.Blocked c)
    (hc : ∀ l ∈ c.rest.head?, l.kind ≠ .minus) (n : ℕ) : (signs operand n).Blocked c := by
  cases n with
  | zero => exact h
  | succ n =>
    have hminus : (token [.minus]).Blocked c :=
      blocked_token fun l hl => mt List.mem_singleton.1 (hc l hl)
    exact h.either ((hminus.bind _).rule _)

/-- A minus sign and its operand, which may have signs itself. -/
theorem sole_negative {l : Lexeme} {rest : List Lexeme} (hc : c.rest = l :: rest)
    (hl : l.kind = .minus) (hblocked : (postfixLevel e).Blocked c)
    (h : (unaryLevel e).Sole ⟨l.stop, rest⟩ t d) :
    ∃ span, (unaryLevel e).Sole c (.node .arithmeticExpression span [.token l.token, t]) d := by
  have hparts : (do
      let minus ← token [.minus]
      return [minus, ← signs (postfixLevel e) rest.length] : Reader (List Tree)).Sole c
        [.token l.token, t] d :=
    (sole_token hc (List.mem_singleton.2 hl)).bind (Sole.bind h (sole_pure _ d))
  obtain ⟨span, hspan⟩ := Sole.rule .arithmeticExpression hparts
  refine ⟨span, ?_⟩
  have hsigns : (signs (postfixLevel e) (rest.length + 1)).Sole c _ d :=
    Sole.either_right hblocked hspan
  unfold Sole unaryLevel
  rw [hc]
  exact hsigns

/-- The tokens that end an operand, and a minus sign, start nothing that follows an operand. -/
theorem postfixLevel_blocked (h : (primary e).Blocked c)
    (hc : ∀ l ∈ c.rest.head?, l.kind ≠ .identifier) : (postfixLevel e).Blocked c := by
  have hname : qualifiedName.Blocked c :=
    ((blocked_token fun l hl => mt List.mem_singleton.1 (hc l hl)).bind _).rule _
  have hfirst : (either (do return (← qualifiedName, true))
      (do return (← primary e, false)) : Reader (Tree × Bool)).Blocked c :=
    (hname.bind _).either (h.bind _)
  exact hfirst.bind _

/-- Where no primary expression stands, there is none with signs before it or with something behind it. -/
theorem unaryLevel_blocked (h : (primary e).Blocked c)
    (hc : ∀ l ∈ c.rest.head?, l.kind ∉ [Terminal.identifier, .minus]) : (unaryLevel e).Blocked c := by
  have hnone : ∀ {kind}, kind ∈ [Terminal.identifier, .minus] → ∀ l ∈ c.rest.head?, l.kind ≠ kind := by
    rintro kind hkind l hl rfl
    exact hc l hl hkind
  exact signs_blocked (postfixLevel_blocked h (hnone (by decide))) (hnone (by decide)) _

/-- Neither a condition, nor arguments, nor a field follows; behind a plain name no dot counts as one. -/
theorem postfixStep_blocked {left : Tree × Bool}
    (hc : ∀ l ∈ c.rest.head?, l.kind ∉ [.leftBracket, .leftParen])
    (hdot : left.2 = true ∨ ∀ l ∈ c.rest.head?, l.kind ≠ .dot) : (postfixStep e left).Blocked c := by
  have hnone : ∀ {kind}, kind ∈ [Terminal.leftBracket, .leftParen] → ∀ l ∈ c.rest.head?, l.kind ≠ kind := by
    rintro kind hkind l hl rfl
    exact hc l hl hkind
  refine blocked_oneOf fun r hr => ?_
  simp only [List.mem_cons, List.not_mem_nil, or_false] at hr
  rcases hr with rfl | rfl | rfl
  · exact (((blocked_skip (hnone (by decide))).bind _).extend _ _).bind _
  · have harguments : (parameters e).Blocked c :=
      ((blocked_skip (hnone (by decide))).bind _).rule _
    exact ((harguments.bind _).extend _ _).bind _
  · split
    · rfl
    · rename_i hplain
      exact (((blocked_skip (hdot.resolve_left hplain)).bind _).extend _ _).bind _

theorem sole_postfixLevel (h : (primary e).Sole c t d)
    (hc : ∀ l ∈ c.rest.head?, l.kind ≠ .identifier) (hd : ∀ l ∈ d.rest.head?, l.kind ∉ tailStarts) :
    (postfixLevel e).Sole c t d := by
  have hname : qualifiedName.Blocked c :=
    ((blocked_token fun l hl => mt List.mem_singleton.1 (hc l hl)).bind _).rule _
  have hfirst : (either (do return (← qualifiedName, true))
      (do return (← primary e, false)) : Reader (Tree × Bool)).Sole c (t, false) d :=
    Sole.either_right (hname.bind _) (h.bind (sole_pure _ d))
  have hstep : (postfixStep e (t, false)).Blocked d := by
    refine postfixStep_blocked (fun l hl hkind => hd l hl ?_) (.inr fun l hl hkind => hd l hl ?_)
    · exact List.Subset.trans (by decide) (List.Subset.refl tailStarts) hkind
    · rw [hkind]
      decide
  exact hfirst.bind ((sole_chain hstep).bind (sole_pure _ d))

end Levels

/-! ### Primary expressions -/

section Primary

variable {e : Reader Tree} {P : List Lexeme → Tree → Prop} {c d x : Cursor} {t : Tree}
  {ts : List Tree} {l m : Lexeme} {inner rest : List Lexeme}

theorem interval_blocked (hc : ∀ l ∈ c.rest.head?, l.kind ≠ .dots) (opening start : Tree) :
    (intervalRest e opening start).Blocked c := (blocked_skip hc).bind _

/-- Where no two dots come, no bracket opens an interval. -/
theorem reversed_blocked (he : e.Yields P) (hc : c.Undotted) : (reversed e).Blocked c := by
  refine Blocked.node (blocked_bind fun x hx => blocked_bind fun y hy => ?_)
  obtain ⟨v, hv, -⟩ := (yields_token c).spans x hx
  obtain ⟨w, hw, -⟩ := (he x.2).spans y hy
  exact interval_blocked ((hc.passes (hv.trans hw)).head) _ _

/-- The tokens that a primary expression starts with, if it is no literal, list or context. -/
def otherStarts : List Terminal := [.leftParen, .question, .specialName, .dateAndTime]

/-- Where no other token starts one, a primary expression is a literal, a list or a context. -/
theorem others_blocked (he : e.Yields P) (hu : c.Undotted)
    (hc : ∀ l ∈ c.rest.head?, l.kind ∉ otherStarts) :
    ∀ r ∈ [parenthesized e, reversed e, rule .inputValue (do skip .question; return []),
      rule .specialFunctionName (do return [← token [.specialName]]),
      rule .dateTimeConstructor (do
        let name ← token [.dateAndTime]
        return [name, ← parameters e])], r.Blocked c := by
  have htoken : ∀ {k}, k ∈ otherStarts → (token [k]).Blocked c := by
    intro k hk
    refine blocked_token fun l hl hkind => hc l hl ?_
    rwa [List.mem_singleton.1 hkind]
  intro r hr
  simp only [List.mem_cons, List.not_mem_nil, or_false] at hr
  rcases hr with rfl | rfl | rfl | rfl | rfl
  · exact ((htoken (by decide)).bind _).node
  · exact reversed_blocked he hu
  · exact (((htoken (by decide)).bind _).bind _).rule _
  · exact ((htoken (by decide)).bind _).rule _
  · exact ((htoken (by decide)).bind _).rule _

theorem literal_blocked (hc : ∀ l ∈ c.rest.head?, l.kind ∉ literalTokens) : literal.Blocked c :=
  blocked_token hc

theorem bracketed_blocked (hc : ∀ l ∈ c.rest.head?, l.kind ≠ .leftBracket) :
    (bracketed e).Blocked c :=
  ((blocked_token fun l hl => mt List.mem_singleton.1 (hc l hl)).bind _).node

theorem context_blocked (hc : ∀ l ∈ c.rest.head?, l.kind ≠ .leftBrace) : (context e).Blocked c :=
  ((blocked_skip hc).bind _).rule _

/-- **No primary expression starts where no token of one stands**, if no two dots come. -/
theorem primary_blocked (he : e.Yields P) (hu : c.Undotted)
    (hc : ∀ l ∈ c.rest.head?, l.kind ∉ literalStarts ++ otherStarts) : (primary e).Blocked c := by
  refine blocked_oneOf fun r hr => ?_
  have hnone : ∀ {kinds}, kinds ⊆ literalStarts ++ otherStarts → ∀ l ∈ c.rest.head?, l.kind ∉ kinds :=
    fun hkinds l hl hkind => hc l hl (hkinds hkind)
  rcases List.mem_cons.1 hr with rfl | hr
  · exact literal_blocked (hnone (by decide))
  rcases List.mem_cons.1 hr with rfl | hr
  · exact bracketed_blocked fun l hl hkind => hnone (by decide) l hl (List.mem_singleton.2 hkind)
  rcases List.mem_cons.1 hr with rfl | hr
  · exact context_blocked fun l hl hkind => hnone (by decide) l hl (List.mem_singleton.2 hkind)
  · exact others_blocked he hu (hnone (by decide)) r hr

/-- A literal is a primary expression. -/
theorem sole_primary_literal (he : e.Yields P) (hu : c.Undotted) (hc : c.rest = l :: rest)
    (hl : l.kind ∈ literalTokens) : (primary e).Sole c (.token l.token) ⟨l.stop, rest⟩ := by
  have hhead : c.HeadIn literalTokens := Cursor.headIn_of_rest hc hl
  refine Sole.oneOf [] _ (sole_token hc hl) (List.forall_mem_nil _) fun r hr => ?_
  rcases List.mem_cons.1 hr with rfl | hr
  · exact bracketed_blocked (avoids_one hhead (by decide))
  rcases List.mem_cons.1 hr with rfl | hr
  · exact context_blocked (avoids_one hhead (by decide))
  · exact others_blocked he hu (avoids hhead (by decide)) r hr

/-- A list is a primary expression. -/
theorem sole_primary_list (he : e.Yields P) (hu : c.Undotted) (hc : c.HeadIn [.leftBracket])
    (h : (bracketed e).Sole c t d) : (primary e).Sole c t d := by
  refine Sole.oneOf [literal] _ h ?_ fun r hr => ?_
  · exact List.forall_mem_singleton.2 (literal_blocked (avoids hc (by decide)))
  rcases List.mem_cons.1 hr with rfl | hr
  · exact context_blocked (avoids_one hc (by decide))
  · exact others_blocked he hu (avoids hc (by decide)) r hr

/-- A context is a primary expression. -/
theorem sole_primary_context (he : e.Yields P) (hu : c.Undotted) (hc : c.HeadIn [.leftBrace])
    (h : (context e).Sole c t d) : (primary e).Sole c t d := by
  refine Sole.oneOf [literal, bracketed e] _ h (List.forall_mem_cons.2 ⟨?_, ?_⟩) ?_
  · exact literal_blocked (avoids hc (by decide))
  · exact List.forall_mem_singleton.2 (bracketed_blocked (avoids_one hc (by decide)))
  · exact others_blocked he hu (avoids hc (by decide))

/-! ### Lists and contexts -/

theorem sole_empty_list (hc : c.rest = l :: m :: rest) (hl : l.kind = .leftBracket)
    (hm : m.kind = .rightBracket) (he : e.Blocked ⟨l.stop, m :: rest⟩) :
    ∃ span, (bracketed e).Sole c (.node .list span []) ⟨m.stop, rest⟩ := by
  refine Sole.node ((sole_token hc (List.mem_singleton.2 hl)).bind ?_)
  exact Sole.either_left ((sole_skip rfl hm).bind (sole_pure _ _)) (he.bind _)

/-- A list is read up to its closing bracket. -/
theorem sole_list (he : e.Yields P) (ho : c.Ordered) (hu : c.Undotted) (hc : c.rest = l :: inner)
    (hl : l.kind = .leftBracket) (hinner : ∀ k ∈ inner.head?, k.kind ≠ .rightBracket)
    (hfirst : e.Sole ⟨l.stop, inner⟩ t d) (hrow : Row e d ts x) (hx : x.rest = m :: rest)
    (hm : m.kind = .rightBracket) :
    ∃ span, (bracketed e).Sole c (.node .list span (t :: ts)) ⟨m.stop, rest⟩ := by
  obtain ⟨w, hw, -⟩ := (he ⟨l.stop, inner⟩).spans (t, d) (by rw [hfirst]; exact List.mem_singleton_self _)
  have hpasses := (Cursor.Passes.singleton hc).trans hw
  have hitems : (do
      let items ← chain (itemStep e) [t]
      skip .rightBracket
      return (Rule.list, items) : Reader (Rule × List Tree)).Sole d (.list, t :: ts) ⟨m.stop, rest⟩ := by
    refine sole_row he hrow (ho.passes hpasses) ((sole_skip hx hm).bind (sole_pure _ _)) ?_
    rintro items y ⟨k, hk, hcomma⟩
    refine (blocked_skip fun k' hk' => ?_).bind _
    obtain rfl := Option.mem_unique hk hk'
    rw [hcomma]
    decide
  refine Sole.node ((sole_token hc (List.mem_singleton.2 hl)).bind ?_)
  refine Sole.either_right ((blocked_skip hinner).bind _) (hfirst.bind ?_)
  exact hitems.either_left (interval_blocked (hu.passes hpasses).head _ _)

theorem sole_entry {k : Lexeme} (hc : c.rest = k :: l :: inner) (hk : k.kind ∈ [Terminal.identifier, .string])
    (hl : l.kind = .colon) (h : e.Sole ⟨l.stop, inner⟩ t d) : ∃ span, (entry e).Sole c
      (.node .contextEntry span [tokenRule .key (.token k.token), t]) d :=
  Sole.rule _ ((sole_token hc hk).bind ((sole_skip rfl hl).bind (h.bind (sole_pure _ d))))

theorem sole_empty_context (hc : c.rest = l :: m :: rest) (hl : l.kind = .leftBrace)
    (hm : m.kind = .rightBrace) :
    ∃ span, (context e).Sole c (.node .context span []) ⟨m.stop, rest⟩ := by
  have hkey : (token [.identifier, .string]).Blocked ⟨l.stop, m :: rest⟩ := by
    refine blocked_token fun k hk => ?_
    cases hk
    rw [hm]
    decide
  have hentries : (separated (entry e)).Blocked ⟨l.stop, m :: rest⟩ := ((hkey.bind _).rule _).bind _
  exact Sole.rule _ ((sole_skip hc hl).bind ((Sole.either_right hentries (sole_pure [] _)).bind
    ((sole_skip rfl hm).bind (sole_pure _ _))))

/-- A context is read up to its closing brace. -/
theorem sole_context {P : List Lexeme → Tree → Prop} (hentry : (entry e).Yields P) (ho : c.Ordered)
    (hc : c.rest = l :: inner) (hl : l.kind = .leftBrace)
    (hinner : ∀ k ∈ inner.head?, k.kind ≠ .rightBrace) (hfirst : (entry e).Sole ⟨l.stop, inner⟩ t d)
    (hrow : Row (entry e) d ts x) (hx : x.rest = m :: rest) (hm : m.kind = .rightBrace) :
    ∃ span, (context e).Sole c (.node .context span (t :: ts)) ⟨m.stop, rest⟩ := by
  have hordered := ho.passes (.singleton hc)
  obtain ⟨hle, others, hfound, hothers⟩ := separated_row hentry hordered hfirst hrow
  obtain ⟨others', hfound', hothers'⟩ := either_pure_first (b := []) hfound hle
  have hentries : (do
      let entries ← either (separated (entry e)) (pure [])
      skip .rightBrace
      return entries : Reader (List Tree)).Sole ⟨l.stop, inner⟩ (t :: ts) ⟨m.stop, rest⟩ := by
    refine sole_bind_first hfound' ((sole_skip hx hm).bind (sole_pure _ _)) fun y hy => ?_
    refine (blocked_skip fun k hk => ?_).bind _
    rcases hothers' y hy with rfl | hy
    · exact hinner k hk
    · obtain ⟨k', hk', hcomma⟩ := hothers y hy
      obtain rfl := Option.mem_unique hk hk'
      rw [hcomma]
      decide
  exact Sole.rule _ ((sole_skip hc hl).bind hentries)

end Primary

/-! ### Whole expressions -/

section Whole

variable {c d : Cursor} {t : Tree} {n : ℕ}

/-- **No expression starts with a token that ends one**, if no two dots come. -/
theorem expression_blocked (hu : c.Undotted) (hc : c.HeadIn closers) (n : ℕ) :
    (expression n).Blocked c := by
  cases n with
  | zero => rfl
  | succ n =>
    have hprimary := primary_blocked (yields_expression n) hu (avoids hc (by decide))
    exact expressionLevel_blocked (unaryLevel_blocked hprimary (avoids hc (by decide))) (avoids hc (by decide))

/-- **What a primary expression is read as, an expression is read as**, where it is a literal, a list or
a context and a token follows that ends it. -/
theorem sole_expression (h : (primary (expression n)).Sole c t d) (hc : c.HeadIn literalStarts)
    (hd : d.HeadIn closers) : (expression (n + 1)).Sole c t d := by
  have hpostfix := sole_postfixLevel h (avoids_one hc (by decide)) (avoids hd (by decide))
  exact sole_expressionLevel (sole_signs hpostfix (avoids_one hc (by decide)) _)
    (avoids hc (by decide)) hd

/-- Behind a minus sign it is the operand of the sign. -/
theorem sole_negative_expression {l : Lexeme} {rest : List Lexeme} (hu : c.Undotted)
    (hc : c.rest = l :: rest) (hl : l.kind = .minus)
    (h : (primary (expression n)).Sole ⟨l.stop, rest⟩ t d)
    (hrest : ∀ m ∈ rest.head?, m.kind ∈ literalStarts) (hd : d.HeadIn closers) :
    ∃ span, (expression (n + 1)).Sole c (.node .arithmeticExpression span [.token l.token, t]) d := by
  have hhead : c.HeadIn [.minus] := Cursor.headIn_of_rest hc (List.mem_singleton.2 hl)
  have hafter : (Cursor.mk l.stop rest).HeadIn literalStarts := hrest
  have hprimary := primary_blocked (yields_expression n) hu (avoids hhead (by decide))
  have hpostfix := postfixLevel_blocked hprimary (avoids_one hhead (by decide))
  have hoperand := sole_postfixLevel h (avoids_one hafter (by decide)) (avoids hd (by decide))
  obtain ⟨span, hspan⟩ :=
    sole_negative hc hl hpostfix (sole_signs hoperand (avoids_one hafter (by decide)) _)
  exact ⟨span, sole_expressionLevel hspan (avoids hhead (by decide)) hd⟩

end Whole

end Grammar

end Criterion

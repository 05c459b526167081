import Criterion.Proofs.Enclosure
import Criterion.Proofs.Entries

/-!
# What all tokens are read as

Of the readings from a place on only the one that uses all tokens decides the tree of a source, and it is
found level by level: where one way is blocked the other one decides, and where nothing is left a loop is at
its end.

* `Reader.all?`: what a reader reads all tokens as.
* `Reader.all?_bind_end`: what goes on where no token is left.
* `Reader.all?_closed`: **readings within brackets**: those that end behind the bracket cannot go on.
* `Grammar.primary_found`, `Grammar.all?_instanceLevel`, `Grammar.all?_expressions`: the levels.
-/

namespace Criterion

open Readings

variable {α β : Type}

/-- Where some tokens are all of a source, and where they stand in a longer one. -/
theorem within_moved (k : ℕ) (ls after : List Lexeme) :
    (⟨k, ls.map (Lexeme.moved k) ++ after⟩ : Cursor) = Cursor.within ⟨k, after⟩ ⟨0, ls⟩ := by
  unfold Cursor.within
  rw [Nat.zero_add]

namespace Reader

variable {r s r' : Reader α} {f : α → Reader β} {a : α} {b : β} {c d : Cursor}

/-- What a reader reads all tokens as. -/
def all? (r : Reader α) (c : Cursor) : Option α := ((r c).upTo? c.last).map (·.1)

theorem all?_eq_complete {r : Reader Tree} {P : List Lexeme → Tree → Prop} (h : r.Yields P) (ho : c.Ordered) :
    (r c).complete? = r.all? c := complete_eq_upTo h ho

theorem Blocked.all? (h : r.Blocked c) : r.all? c = Option.none := by
  unfold Reader.all? upTo?
  rw [h]
  rfl

theorem descending_read (r : Reader α) (f : α → Reader β) (c : Cursor) : Descending ((r >>= f) c).found :=
  descending_bind (r c) f

theorem Sole.all? (h : r.Sole c a d) (hd : d.stop = c.last) : r.all? c = some a := by
  unfold Reader.all? upTo?
  rw [h, List.find?_cons_of_pos (by simpa using hd)]
  rfl

theorem all?_either (h : Descending (r c).found) (s : Reader α) :
    (either r s).all? c = (r.all? c).or (s.all? c) := by
  have hunion : (either r s c).upTo? c.last = ((r c).upTo? c.last).or ((s c).upTo? c.last) :=
    upTo_union h (s c) c.last
  unfold all?
  rw [hunion, Option.map_or]

/-- A value that is made of what was read. -/
theorem all?_map (r : Reader α) (g : α → β) : (do return g (← r)).all? c = (r.all? c).map g := by
  have hbind : ((do return g (← r) : Reader β) c).upTo? c.last =
      ((r c).upTo? c.last).map fun y => (g y.1, y.2) :=
    upTo_bind_single (g := fun a _ => g a) (fun _ _ => rfl) (r c) c.last
  unfold all?
  rw [hbind, Option.map_map, Option.map_map]
  rfl

/-- The reading of all tokens ends where they end. -/
theorem all?_stop {g : α × Cursor → β} {g' : α → β} (h : ∀ a d, d.stop = c.last → g (a, d) = g' a) :
    ((r c).upTo? c.last).map g = (r.all? c).map g' := by
  unfold all?
  cases hread : (r c).upTo? c.last with
  | none => rfl
  | some y =>
    have hstop : y.2.stop = c.last := by simpa using List.find?_some hread
    exact congrArg some (h y.1 y.2 hstop)

theorem all?_rule (rule : Rule) (parts : Reader (List Tree)) : (Grammar.rule rule parts).all? c =
    (parts.all? c).map (.node rule (c.rest.head?.map fun l => ⟨l.start, c.last⟩)) := by
  refine Eq.trans ?_ (all?_stop (r := parts) (c := c) (g := fun y =>
    .node rule (c.rest.head?.map fun l => ⟨l.start, y.2.stop⟩) y.1) fun a d hd => by rw [hd])
  unfold all?
  rw [upTo_rule, Option.map_map]
  rfl

theorem all?_node (parts : Reader (Rule × List Tree)) : (node parts).all? c =
    (parts.all? c).map fun x => .node x.1 (c.rest.head?.map fun l => ⟨l.start, c.last⟩) x.2 := by
  refine Eq.trans ?_ (all?_stop (r := parts) (c := c) (g := fun y =>
    .node y.1.1 (c.rest.head?.map fun l => ⟨l.start, y.2.stop⟩) y.1.2) fun a d hd => by rw [hd])
  unfold all?
  rw [upTo_node, Option.map_map]
  rfl

theorem all?_extend (rule : Rule) (left : Tree) (parts : Reader (List Tree)) :
    (extend rule left parts).all? c =
      (parts.all? c).map fun ts => .node rule (left.span.map fun s => ⟨s.start, c.last⟩) (left :: ts) := by
  let made : List Tree → Cursor → Tree := fun ts d =>
    .node rule (left.span.map fun s => ⟨s.start, d.stop⟩) (left :: ts)
  have hbind : (extend rule left parts c).upTo? c.last =
      ((parts c).upTo? c.last).map fun y => (made y.1 y.2, y.2) :=
    upTo_bind_single (g := made) (fun _ _ => rfl) (parts c) c.last
  refine Eq.trans ?_ (all?_stop (r := parts) (c := c) (g := fun y => made y.1 y.2) fun ts d hd => ?_)
  · unfold all?
    rw [hbind, Option.map_map]
    rfl
  · show Tree.node rule (left.span.map fun s => ⟨s.start, d.stop⟩) (left :: ts) = _
    rw [hd]

/-- What goes on from the only reading. -/
theorem Sole.bind_found_eq (h : r.Sole c a d) (hdesc : Descending (f a d).found) :
    ((r >>= f) c).found = (f a d).found := by
  rw [bind_found h]
  have hsorted : Descending ([] ++ (f a d).found) := hdesc
  exact foldl_insert_sorted hsorted

theorem Sole.all?_bind (h : r.Sole c a d) (hdesc : Descending (f a d).found) (hlast : d.last = c.last) :
    (r >>= f).all? c = (f a).all? d := by
  unfold Reader.all? upTo?
  rw [h.bind_found_eq hdesc, hlast]

/-- Behind a token. -/
theorem all?_token {kinds : List Terminal} {f : Tree → Reader β} {l : Lexeme} {rest : List Lexeme}
    (hc : c.rest = l :: rest) (hl : l.kind ∈ kinds)
    (hdesc : Descending (f (.token l.token) ⟨l.stop, rest⟩).found) :
    (token kinds >>= f).all? c = (f (.token l.token)).all? ⟨l.stop, rest⟩ :=
  (sole_token hc hl).all?_bind hdesc (Cursor.Passes.singleton hc).last

/-- A reading of all tokens is the first one. -/
theorem found_of_all? (hr : r.Steady) (hdesc : Descending (r c).found) (ho : c.Ordered)
    (h : r.all? c = some a) : ∃ others, (r c).found = (a, ⟨c.last, []⟩) :: others := by
  obtain ⟨⟨a', d⟩, hread, rfl⟩ := Option.map_eq_some_iff.1 h
  have hmem : (a', d) ∈ (r c).found := List.mem_of_find?_eq_some hread
  have hstop : d.stop = c.last := by simpa using List.find?_some hread
  obtain ⟨w, hw, -⟩ := (hr c).spans _ hmem
  have hrest : d.rest = [] := (hw.rest_nil_iff ho).2 hstop
  have hd : d = ⟨c.last, []⟩ := by rw [← hstop, ← hrest]
  subst hd
  refine hdesc.head hmem fun y hy => ?_
  obtain ⟨v, hv, -⟩ := (hr c).spans y hy
  exact hv.stop_le ho

theorem all?_of_mem (hr : r.Steady) (hdesc : Descending (r c).found) (ho : c.Ordered)
    (h : (a, d) ∈ (r c).found) (hd : d.rest = []) : r.all? c = some a := by
  obtain ⟨w, hw, -⟩ := (hr c).spans _ h
  have hstop : d.stop = c.last := (hw.rest_nil_iff ho).1 hd
  obtain ⟨others, hfound⟩ := hdesc.head h fun y hy => by
    obtain ⟨v, hv, -⟩ := (hr c).spans y hy
    rw [hstop]
    exact hv.stop_le ho
  unfold all? upTo?
  rw [hfound, List.find?_cons_of_pos (by simpa using hstop)]
  rfl

/-- What all tokens are read as is told of by them. -/
theorem Yields.of_all? {P : List Lexeme → α → Prop} (h : r.Yields P) (ho : c.Ordered) (ha : r.all? c = some a) :
    P c.rest a := by
  obtain ⟨⟨a', d⟩, hread, rfl⟩ := Option.map_eq_some_iff.1 ha
  obtain ⟨w, hw, htells⟩ := (h c).spans _ (List.mem_of_find?_eq_some hread)
  have hstop : d.stop = c.last := by simpa using List.find?_some hread
  have hrest : d.rest = [] := (hw.rest_nil_iff ho).2 hstop
  have hall : c.rest = w := by simpa [hrest] using hw.rest
  rwa [hall]

/-- The first part from which all tokens are read decides. -/
theorem all?_bind (hr : r.Steady) (f : α → Reader β) :
    (r >>= f).all? c = (r c).found.findSome? fun y => (f y.1).all? y.2 := by
  have hlast : ∀ y ∈ (r c).found, y.2.last = c.last := by
    intro y hy
    obtain ⟨w, hw, -⟩ := (hr c).spans y hy
    exact hw.last
  have hbind : ((r >>= f) c).upTo? c.last = (r c).found.findSome? fun y => (f y.1 y.2).upTo? c.last := upTo_bind _ _ _
  unfold all?
  rw [hbind, List.map_findSome?]
  revert hlast
  induction (r c).found with
  | nil => exact fun _ => rfl
  | cons y ys ih =>
    intro hlast
    obtain ⟨hy, hys⟩ := List.forall_mem_cons.1 hlast
    rw [List.findSome?_cons, List.findSome?_cons, ih hys, hy]
    rfl

/-- **Where no token is left**, what goes on there decides. -/
theorem all?_bind_end (hr : r.Steady) (hdesc : Descending (r c).found) (ho : c.Ordered)
    (h : r.all? c = some a) (hf : (f a).all? ⟨c.last, []⟩ = some b) : (r >>= f).all? c = some b := by
  obtain ⟨others, hfound⟩ := found_of_all? hr hdesc ho h
  rw [all?_bind hr, hfound, List.findSome?_cons, hf]

theorem all?_chain_end (step : α → Reader α) (a : α) (stop : ℕ) :
    (chain step a).all? ⟨stop, []⟩ = some a := by
  have hread := upTo_chain_end step a (c := ⟨stop, []⟩) rfl
  unfold all?
  exact congrArg (Option.map (·.1)) hread

/-- Operands joined by operators: one that uses all tokens is joined with nothing. -/
theorem all?_chained {step : α → Reader α} (hr : r.Steady) (hdesc : Descending (r c).found) (ho : c.Ordered)
    (h : r.all? c = some a) :
    (do
      let first ← r
      chain step first : Reader α).all? c = some a :=
  all?_bind_end hr hdesc ho h (all?_chain_end step a _)

/-- One item that uses all tokens is the only one. -/
theorem all?_separated (hr : r.Steady) (hdesc : Descending (r c).found) (ho : c.Ordered) (h : r.all? c = some a) :
    (separated r).all? c = some [a] := all?_bind_end hr hdesc ho h (all?_chain_end _ _ _)

theorem Steady.separated (h : r.Steady) : (separated r).Steady :=
  h.bind fun _ => .chain fun _ => Steady.skip.bind fun _ => h.bind fun _ => .pure

theorem descending_separated (r : Reader α) (c : Cursor) : Descending (separated r c).found := by
  unfold Reader.separated
  exact descending_read _ _ c

/-- The only reading is no reading of all tokens if some are left. -/
theorem Sole.all?_none (h : r.Sole c a d) {w : List Lexeme} (hw : c.Passes w d) (ho : c.Ordered)
    (hd : d.rest ≠ []) : r.all? c = Option.none := by
  have hstop : d.stop ≠ c.last := fun hstop => hd ((hw.rest_nil_iff ho).2 hstop)
  unfold Reader.all? upTo?
  rw [h, List.find?_cons_of_neg (by simpa using hstop)]
  rfl

/-- One of several readers has all the readings if the others are blocked. -/
theorem found_oneOf (before after : List (Reader α)) (hdesc : Descending (r c).found)
    (hbefore : ∀ s ∈ before, s.Blocked c) (hafter : ∀ s ∈ after, s.Blocked c) :
    (oneOf (before ++ r :: after) c).found = (r c).found := by
  induction before with
  | nil =>
    have hnone := blocked_oneOf hafter
    show (either r (oneOf after) c).found = _
    unfold either union
    rw [hnone]
    rfl
  | cons s before ih =>
    obtain ⟨hs, hbefore⟩ := List.forall_mem_cons.1 hbefore
    have hrest := ih hbefore
    show (either s (oneOf (before ++ r :: after)) c).found = _
    unfold either union
    rw [hs, hrest]
    have hsorted : Descending ([] ++ (r c).found) := hdesc
    exact foldl_insert_sorted hsorted

/-- Two readers with the same readings read all tokens as the same. -/
theorem all?_congr (h : (r c).found = (s c).found) : r.all? c = s.all? c := by
  unfold all? upTo?
  rw [h]

/-! ## Brackets -/

section Closed

variable {σ : Surroundings} {n : ℕ} {m : α → α} {l : Lexeme}

/-- In a longer row with one token more, a reading that ends later ends behind that token. -/
theorem rest_nil_of_far (hσ : σ.after = [l]) (ho : (c.within σ).Ordered) {w : List Lexeme}
    (h : Cursor.Passes (c.within σ) w d) (hfar : c.last + σ.before < d.stop) : d.rest = [] := by
  have hrest := h.rest
  rw [Cursor.within_rest, hσ] at hrest
  obtain ⟨more, hw, hl⟩ | ⟨more, hrows, hd⟩ := List.append_eq_append_iff.1 hrest
  · -- all tokens of the inner row are read, and the last one perhaps
    cases more with
    | nil =>
      have hinner : Cursor.Passes c c.rest ⟨c.last, []⟩ := ⟨(List.append_nil _).symm, rfl⟩
      have hstop := (hinner.within σ).stop
      rw [List.append_nil] at hw
      rw [h.stop, hw, ← hstop] at hfar
      exact absurd hfar (lt_irrefl _)
    | cons k more =>
      have hlength := congrArg List.length hl
      simp only [List.length_append, List.length_cons, List.length_nil] at hlength
      exact List.length_eq_zero_iff.1 (by omega)
  · -- some tokens of the inner row are left
    have hpasses : Cursor.Passes ⟨c.stop + σ.before, c.rest.map (Lexeme.moved σ.before)⟩ w ⟨d.stop, more⟩ :=
      ⟨hrows, h.stop⟩
    have hordered : Cursor.Ordered ⟨c.stop + σ.before, c.rest.map (Lexeme.moved σ.before)⟩ := by
      refine ho.sublist ?_
      rw [Cursor.within_stop, Cursor.within_rest, List.map_append]
      exact (List.sublist_append_left _ _).cons_cons _
    have hle : d.stop ≤ Cursor.stopAfter (c.stop + σ.before) (c.rest.map (Lexeme.moved σ.before)) :=
      hpasses.stop_le hordered
    have hinner : Cursor.Passes c c.rest ⟨c.last, []⟩ := ⟨(List.append_nil _).symm, rfl⟩
    have hstop : c.last + σ.before =
        Cursor.stopAfter (c.stop + σ.before) (c.rest.map (Lexeme.moved σ.before)) := (hinner.within σ).stop
    omega

/-- **Readings within brackets.** What uses all tokens within, before the closing token, goes on first where
what follows needs a token. -/
theorem all?_closed {r r' : Reader α} {f : α → Reader β} (h : Local σ n m r r') (hσ : σ.after = [l])
    (hdesc : Descending (r c).found) (ho : (c.within σ).Ordered) (hc : c.rest.length < n)
    (ha : r.all? c = some a) (hf : (f (m a)).all? ⟨c.last + σ.before, [l]⟩ = some b)
    (hend : ∀ y d, d.rest = [] → (f y).Blocked d) : (r' >>= f).all? (c.within σ) = some b := by
  obtain ⟨others, hfound⟩ := found_of_all? h.steady hdesc ho.of_within ha
  obtain ⟨-, far, hreadings, hfar⟩ := h.embeds c ho hc
  have hplace : Cursor.within σ ⟨c.last, []⟩ = ⟨c.last + σ.before, [l]⟩ := by
    unfold Cursor.within
    rw [hσ]
    rfl
  -- a reading that ends later leaves nothing to go on with
  have hblocked : ∀ y ∈ far, (f y.1).all? y.2 = Option.none := by
    intro y hy
    have hmem : y ∈ (r' (c.within σ)).found := by
      rw [hreadings]
      exact List.mem_append_left _ hy
    obtain ⟨w, hw, -⟩ := (h.steady' _).spans y hmem
    exact (hend y.1 y.2 (rest_nil_of_far hσ ho hw (hfar y hy))).all?
  rw [all?_bind h.steady', hreadings, hfound, List.findSome?_append, List.findSome?_eq_none_iff.2 hblocked,
    Option.none_or, List.map_cons, List.findSome?_cons]
  unfold placed
  rw [hplace, hf]

end Closed

/-- **Readings where nothing follows** are those of the tokens alone, further on. -/
theorem all?_within {σ : Surroundings} {n : ℕ} {m : α → α} {r r' : Reader α} (h : Local σ n m r r')
    (hσ : σ.after = []) (hdesc : Descending (r c).found) (hdesc' : Descending (r' (c.within σ)).found)
    (ho : (c.within σ).Ordered) (hc : c.rest.length < n) (ha : r.all? c = some a) :
    r'.all? (c.within σ) = some (m a) := by
  obtain ⟨others, hfound⟩ := found_of_all? h.steady hdesc ho.of_within ha
  obtain ⟨-, far, hreadings, -⟩ := h.embeds c ho hc
  have hmem : (m a, Cursor.within σ ⟨c.last, []⟩) ∈ (r' (c.within σ)).found := by
    rw [hreadings, hfound]
    exact List.mem_append_right _ List.mem_cons_self
  exact all?_of_mem h.steady' hdesc' ho hmem hσ

/-- **Tokens at the end of a longer row** are read as they are by themselves. -/
theorem all?_behind {k n : ℕ} {r r' : Reader Tree} {ls : List Lexeme} {t : Tree}
    (h : Local ⟨k, []⟩ n (Tree.moved k) r r') (hdesc : ∀ c, Descending (r c).found)
    (hdesc' : ∀ c, Descending (r' c).found) (ho : Cursor.Ordered ⟨k, ls.map (Lexeme.moved k)⟩) (hn : ls.length < n)
    (ha : r.all? ⟨0, ls⟩ = some t) : r'.all? ⟨k, ls.map (Lexeme.moved k)⟩ = some (t.moved k) := by
  have hplace : (⟨k, ls.map (Lexeme.moved k)⟩ : Cursor) = Cursor.within ⟨k, []⟩ ⟨0, ls⟩ := by
    rw [← within_moved, List.append_nil]
  rw [hplace] at ho ⊢
  exact all?_within h rfl (hdesc _) (hdesc' _) ho hn ha

/-- All tokens are read if they are of the language of what the reader finds. -/
theorem Finds.exists_all? {r : Reader α} {k : ℕ} {L : Language Lexeme} (h : r.Finds k L)
    (hdesc : Descending (r c).found) (ho : c.Ordered) (hk : c.rest.length < k) (hL : c.rest ∈ L) :
    ∃ a, r.all? c = some a := by
  have hpasses : Cursor.Passes c c.rest ⟨c.last, []⟩ := ⟨(List.append_nil _).symm, rfl⟩
  obtain ⟨a, ha⟩ := h.found _ _ _ ho hpasses hk hL
  exact ⟨a, all?_of_mem h.steady hdesc ho ha rfl⟩

end Reader

/-! ## Levels -/

namespace Grammar

open Reader

variable {e : Reader Tree} {c d : Cursor} {t : Tree}

/-- **No primary expression starts where no token of one stands.** -/
theorem primary_blocked_at (he : e.Yields Nonterminal.expression.Tells)
    (hc : ∀ l ∈ c.rest.head?, l.kind ∉ primaryStarts) : (primary e).Blocked c := by
  refine List.eq_nil_iff_forall_not_mem.2 fun x hx => ?_
  obtain ⟨w, hw, ht⟩ := (yields_primary he c).spans x hx
  obtain ⟨l, hl, hkind⟩ := begins_primary w ⟨_, ht⟩
  refine hc l ?_ hkind
  rw [hw.rest, List.head?_append, hl]
  rfl

/-- Behind an opening parenthesis a primary expression is one in parentheses, or an interval. -/
theorem primary_found (hc : c.HeadIn [.leftParen]) : (primary e c).found = (parenthesized e c).found := by
  have htoken : ∀ {kinds : List Terminal}, .leftParen ∉ kinds → (token kinds).Blocked c := by
    intro kinds hkinds
    refine blocked_token fun l hl => ?_
    rw [List.mem_singleton.1 (hc l hl)]
    exact hkinds
  refine found_oneOf [literal, bracketed e, context e] _ (descending_node _ _) ?_ ?_
  · intro s hs
    simp only [List.mem_cons, List.not_mem_nil, or_false] at hs
    rcases hs with rfl | rfl | rfl
    · exact htoken (by decide)
    · exact ((htoken (by decide)).bind _).node
    · exact (((htoken (by decide)).bind _).bind _).rule _
  · intro s hs
    simp only [List.mem_cons, List.not_mem_nil, or_false] at hs
    rcases hs with rfl | rfl | rfl | rfl
    · exact ((htoken (by decide)).bind _).node
    · exact (((htoken (by decide)).bind _).bind _).rule _
    · exact ((htoken (by decide)).bind _).rule _
    · exact ((htoken (by decide)).bind _).rule _

theorem instanceLevel_blocked (h : (primary e).Blocked c)
    (hc : ∀ l ∈ c.rest.head?, l.kind ∉ [Terminal.identifier, .minus]) : (instanceLevel e).Blocked c := by
  have hsum : (sumLevel e).Blocked c :=
    leftJoined_blocked (leftJoined_blocked (leftJoined_blocked (unaryLevel_blocked h hc) _) _) _
  exact hsum.bind _

theorem leftJoined_steady {operand : Reader Tree} (h : operand.Steady) (ops : List Terminal) :
    (leftJoined operand ops).Steady :=
  h.bind fun _ => .chain fun _ => (Steady.token.bind fun _ => h.bind fun _ => .pure).extend

theorem wordJoined_steady {operand : Reader Tree} (h : operand.Steady) (k : Keyword) (r : Rule) :
    (wordJoined operand k r).Steady :=
  h.bind fun _ => .chain fun _ => (Steady.skip.bind fun _ => h.bind fun _ => .pure).extend

theorem descending_signs {operand : Reader Tree} (h : ∀ c, Descending (operand c).found) (n : ℕ)
    (c : Cursor) : Descending (signs operand n c).found := by
  cases n with
  | zero => exact h c
  | succ n => exact descending_union (h c) _

theorem all?_leftJoined {operand : Reader Tree} (h : operand.Steady) (hdesc : Descending (operand c).found)
    (ho : c.Ordered) (ht : operand.all? c = some t) (ops : List Terminal) :
    (leftJoined operand ops).all? c = some t := all?_chained h hdesc ho ht

theorem all?_wordJoined {operand : Reader Tree} (h : operand.Steady) (hdesc : Descending (operand c).found)
    (ho : c.Ordered) (ht : operand.all? c = some t) (k : Keyword) (r : Rule) :
    (wordJoined operand k r).all? c = some t := all?_chained h hdesc ho ht

theorem all?_postfixLevel (he : e.Yields Nonterminal.expression.Tells) (ho : c.Ordered)
    (hc : ∀ l ∈ c.rest.head?, l.kind ≠ .identifier) (h : (primary e).all? c = some t) :
    (postfixLevel e).all? c = some t := by
  have hname : qualifiedName.Blocked c :=
    ((blocked_token fun l hl => mt List.mem_singleton.1 (hc l hl)).bind _).rule _
  have hfirst : (either (do return (← qualifiedName, true))
      (do return (← primary e, false)) : Reader (Tree × Bool)).all? c = some (t, false) := by
    rw [all?_either (descending_read _ _ _), (hname.bind _).all?, all?_map, h]
    rfl
  have hsteady : (either (do return (← qualifiedName, true))
      (do return (← primary e, false)) : Reader (Tree × Bool)).Steady :=
    (yields_qualifiedName.steady.bind fun _ => .pure).either
      ((yields_primary he).steady.bind fun _ => .pure)
  have hlast : (do return (← chain (postfixStep e) (t, false)).1 : Reader Tree).all? ⟨c.last, []⟩ = some t :=
    (all?_map _ Prod.fst).trans (congrArg (Option.map Prod.fst) (all?_chain_end _ _ _))
  exact all?_bind_end hsteady (descending_union (descending_read _ _ _) _) ho hfirst hlast

theorem descending_postfixLevel (e : Reader Tree) (c : Cursor) : Descending (postfixLevel e c).found := by
  unfold postfixLevel
  exact descending_read _ _ c

theorem all?_signs {operand : Reader Tree} (hdesc : Descending (operand c).found)
    (h : operand.all? c = some t) (n : ℕ) : (signs operand n).all? c = some t := by
  cases n with
  | zero => exact h
  | succ n =>
    show (either _ _).all? c = some t
    rw [all?_either hdesc, h, Option.some_or]

theorem all?_instanceLevel_of_sum (he : e.Yields Nonterminal.expression.Tells) (ho : c.Ordered)
    (h : (sumLevel e).all? c = some t) : (instanceLevel e).all? c = some t :=
  all?_chained (yields_sumLevel he).steady (descending_read _ _ _) ho h

/-- **A primary expression that uses all tokens is a whole operand.** -/
theorem all?_instanceLevel (he : e.Yields Nonterminal.expression.Tells) (ho : c.Ordered)
    (hc : ∀ l ∈ c.rest.head?, l.kind ≠ .identifier) (h : (primary e).all? c = some t) :
    (instanceLevel e).all? c = some t := by
  have hsteady := (yields_unaryLevel he).steady
  have hfound : (unaryLevel e c).found = (signs (postfixLevel e) c.rest.length c).found := rfl
  have hdesc : Descending (unaryLevel e c).found := by
    rw [hfound]
    exact descending_signs (descending_postfixLevel e) _ c
  have hunary : (unaryLevel e).all? c = some t := by
    rw [all?_congr hfound]
    exact all?_signs (descending_postfixLevel e c) (all?_postfixLevel he ho hc h) _
  have hpower : (powerLevel e).all? c = some t := all?_leftJoined hsteady hdesc ho hunary _
  have hproduct : (productLevel e).all? c = some t :=
    all?_leftJoined (leftJoined_steady hsteady _) (descending_read _ _ _) ho hpower _
  have hsum : (sumLevel e).all? c = some t :=
    all?_leftJoined (leftJoined_steady (leftJoined_steady hsteady _) _) (descending_read _ _ _) ho hproduct _
  exact all?_instanceLevel_of_sum he ho hsum

/-- A comparison is an operand alone, or one with what follows it; an operand that uses all tokens goes before. -/
theorem all?_comparisonLevel_eq (c : Cursor) : (comparisonLevel e).all? c = ((instanceLevel e).all? c).or
    ((instanceLevel e >>= fun left => extend .comparison left (comparisonRest e)).all? c) := by
  have hfound : (comparisonLevel e c).found = (either (instanceLevel e >>= pure)
      (instanceLevel e >>= fun left => extend .comparison left (comparisonRest e)) c).found := rfl
  have hplain : (instanceLevel e >>= pure).all? c = (instanceLevel e).all? c :=
    (all?_map (instanceLevel e) id).trans (Option.map_id_apply)
  rw [all?_congr hfound, all?_either (descending_read _ _ _), hplain]

/-- **A comparison that uses all tokens is a whole expression**, unless a loop or a choice starts there. -/
theorem all?_expressionLevel (he : e.Yields Nonterminal.expression.Tells) (ho : c.Ordered)
    (hc : ∀ l ∈ c.rest.head?, l.kind ∉ loopWords) (h : (comparisonLevel e).all? c = some t) :
    (expressionLevel e).all? c = some t := by
  have hsteady := (yields_comparisonLevel he).steady
  have hand : (andLevel e).all? c = some t :=
    all?_wordJoined hsteady (descending_union (descending_read _ _ _) _) ho h _ _
  have hor : (orLevel e).all? c = some t :=
    all?_wordJoined (wordJoined_steady hsteady _ _) (descending_read _ _ _) ho hand _ _
  have hfound : (expressionLevel e c).found = (orLevel e c).found :=
    found_oneOf [forExpression e, quantifiedExpression e, ifExpression e] [] (descending_read _ _ _)
      (loops_blocked hc) (List.forall_mem_nil _)
  rw [all?_congr hfound, hor]

/-- **An expression that uses all tokens is the only one of a source.** -/
theorem all?_expressions (he : e.Steady) (hdesc : Descending (e c).found) (ho : c.Ordered)
    (h : e.all? c = some t) : (expressions e).all? c =
      some (.node .expressions (c.rest.head?.map fun l => ⟨l.start, c.last⟩) [t]) := by
  unfold expressions
  rw [all?_rule, all?_separated he hdesc ho h]
  rfl

end Grammar

end Criterion

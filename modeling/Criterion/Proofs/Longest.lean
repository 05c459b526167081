import Criterion.Proofs.Acceptance

/-!
# The longest reading

The readings of a reader are sorted by their ends, the longest first, so a reading of all tokens is the
first of them. What a source is read as is told by the readings that end at one place alone.

* `Descending`: readings sorted by their ends, which `insert`, `union` and `bind` keep.
* `Readings.upTo?`: the reading that ends at a place.
* `upTo_union`, `upTo_bind`: which reading that is, by the order of the ways that lead there.
* `complete_eq_upTo`: the tree of a source is the reading that ends where its tokens end.
-/

namespace Criterion

variable {α β : Type}

namespace Readings

/-- The readings end at different places, the last place first. -/
def Descending (found : List (α × Cursor)) : Prop :=
  found.Pairwise fun x y => y.2.stop < x.2.stop

/-- The reading that ends at a place. -/
def upTo? (r : Readings α) (stop : ℕ) : Option (α × Cursor) := r.found.find? (·.2.stop = stop)

section Sorting

variable {x y : α × Cursor} {found more : List (α × Cursor)} {stop : ℕ}

theorem descending_insert (x : α × Cursor) (h : Descending found) :
    Descending (insert x found) := by
  induction found with
  | nil => exact List.pairwise_singleton _ _
  | cons y ys ih =>
    obtain ⟨hfirst, hrest⟩ := List.pairwise_cons.1 h
    unfold insert
    split
    · rename_i hlt
      refine List.pairwise_cons.2 ⟨fun z hz => ?_, h⟩
      rcases List.mem_cons.1 hz with rfl | hz
      · exact hlt
      · exact Nat.lt_trans (hfirst z hz) hlt
    split
    · exact h
    · rename_i hge hne
      refine List.pairwise_cons.2 ⟨fun z hz => ?_, ih hrest⟩
      -- what is behind `y` is the new reading or was there before
      rcases of_mem_insert hz with rfl | hz
      · omega
      · exact hfirst z hz

/-- The reading that is there already is kept. -/
theorem find_insert (x : α × Cursor) (h : Descending found) (stop : ℕ) :
    (insert x found).find? (·.2.stop = stop) =
      (found.find? (·.2.stop = stop)).or (if x.2.stop = stop then some x else none) := by
  induction found with
  | nil =>
    unfold insert
    by_cases hx : x.2.stop = stop
    · rw [List.find?_cons_of_pos (by simpa using hx), if_pos hx]
      rfl
    · rw [List.find?_cons_of_neg (by simpa using hx), if_neg hx]
      rfl
  | cons y ys ih =>
    obtain ⟨hfirst, hrest⟩ := List.pairwise_cons.1 h
    unfold insert
    split
    · rename_i hlt
      by_cases hx : x.2.stop = stop
      · -- all that was there ends before the new reading
        have hnone : (y :: ys).find? (·.2.stop = stop) = none := by
          refine List.find?_eq_none.2 fun z hz => ?_
          have hle : z.2.stop ≤ y.2.stop := by
            rcases List.mem_cons.1 hz with rfl | hz
            · exact le_rfl
            · exact (hfirst z hz).le
          simp only [decide_eq_true_eq]
          omega
        rw [hnone, List.find?_cons_of_pos (by simpa using hx), if_pos hx, Option.none_or]
      · rw [List.find?_cons_of_neg (by simpa using hx), if_neg hx, Option.or_none]
    split
    · rename_i heq
      by_cases hy : y.2.stop = stop
      · rw [List.find?_cons_of_pos (by simpa using hy), Option.some_or]
      · have hx : x.2.stop ≠ stop := by omega
        rw [if_neg hx, Option.or_none]
    · -- the new reading comes behind `y`
      by_cases hy : y.2.stop = stop
      · rw [List.find?_cons_of_pos (by simpa using hy), List.find?_cons_of_pos (by simpa using hy),
          Option.some_or]
      · rw [List.find?_cons_of_neg (by simpa using hy), List.find?_cons_of_neg (by simpa using hy),
          ih hrest]

theorem descending_foldl_insert (h : Descending found) :
    Descending (more.foldl (fun found r => insert r found) found) := by
  induction more generalizing found with
  | nil => exact h
  | cons x more ih => exact ih (descending_insert x h)

theorem find_foldl_insert (h : Descending found) (stop : ℕ) :
    (more.foldl (fun found r => insert r found) found).find? (·.2.stop = stop) =
      (found.find? (·.2.stop = stop)).or (more.find? (·.2.stop = stop)) := by
  induction more generalizing found with
  | nil => exact (Option.or_none).symm
  | cons x more ih =>
    rw [List.foldl_cons, ih (descending_insert x h), find_insert x h, Option.or_assoc]
    congr 1
    by_cases hx : x.2.stop = stop
    · rw [if_pos hx, List.find?_cons_of_pos (by simpa using hx), Option.some_or]
    · rw [if_neg hx, List.find?_cons_of_neg (by simpa using hx), Option.none_or]

/-- A reading that ends where none ends later is the first. -/
theorem Descending.head (h : Descending found) (hx : x ∈ found)
    (hlast : ∀ y ∈ found, y.2.stop ≤ x.2.stop) : ∃ rest, found = x :: rest := by
  cases found with
  | nil => exact absurd hx List.not_mem_nil
  | cons y ys =>
    rcases List.mem_cons.1 hx with rfl | hx
    · exact ⟨ys, rfl⟩
    · have hlt := (List.pairwise_cons.1 h).1 x hx
      have hle := hlast y List.mem_cons_self
      omega

end Sorting

variable {r s : Readings α} {f : α → Reader β}

theorem descending_union (h : Descending r.found) (s : Readings α) :
    Descending (r.union s).found := descending_foldl_insert h

/-- **The first way that leads to a place decides what is read up to there.** -/
theorem upTo_union (h : Descending r.found) (s : Readings α) (stop : ℕ) :
    (r.union s).upTo? stop = (r.upTo? stop).or (s.upTo? stop) := find_foldl_insert h stop

theorem descending_foldl_union {found : List (α × Cursor)} {all : Readings β}
    (h : Descending all.found) :
    Descending (found.foldl (fun all (a, c) => all.union (f a c)) all).found := by
  induction found generalizing all with
  | nil => exact h
  | cons x found ih => exact ih (descending_union h _)

theorem upTo_foldl_union {found : List (α × Cursor)} {all : Readings β} (h : Descending all.found)
    (stop : ℕ) : (found.foldl (fun all (a, c) => all.union (f a c)) all).upTo? stop =
      (all.upTo? stop).or (found.findSome? fun y => (f y.1 y.2).upTo? stop) := by
  induction found generalizing all with
  | nil => exact (Option.or_none).symm
  | cons x found ih =>
    rw [List.foldl_cons, ih (descending_union h _), upTo_union h, Option.or_assoc,
      List.findSome?_cons]
    cases (f x.1 x.2).upTo? stop <;> rfl

theorem descending_bind (r : Readings α) (f : α → Reader β) : Descending (r.bind f).found :=
  descending_foldl_union List.Pairwise.nil

/-- **The first part from which a place is reached decides what is read up to there.** -/
theorem upTo_bind (r : Readings α) (f : α → Reader β) (stop : ℕ) :
    (r.bind f).upTo? stop = r.found.findSome? fun y => (f y.1 y.2).upTo? stop := by
  have hnone : Descending ((⟨[], r.reached⟩ : Readings β).found) := List.Pairwise.nil
  exact (upTo_foldl_union hnone stop).trans Option.none_or

/-- A second part that reads nothing more ends where the first one does. -/
theorem upTo_bind_single {g : α → Cursor → β} (h : ∀ a c, (f a c).found = [(g a c, c)])
    (r : Readings α) (stop : ℕ) :
    (r.bind f).upTo? stop = (r.upTo? stop).map fun y => (g y.1 y.2, y.2) := by
  rw [upTo_bind]
  unfold upTo?
  induction r.found with
  | nil => rfl
  | cons y ys ih =>
    rw [List.findSome?_cons, h, ih]
    by_cases hy : y.2.stop = stop
    · rw [List.find?_cons_of_pos (by simpa using hy), List.find?_cons_of_pos (by simpa using hy)]
      rfl
    · rw [List.find?_cons_of_neg (by simpa using hy), List.find?_cons_of_neg (by simpa using hy)]
      rfl

/-- A first part without a reading has no reading behind it. -/
theorem bind_found_nil (h : r.found = []) (f : α → Reader β) : (r.bind f).found = [] := by
  unfold bind
  rw [h]
  rfl

end Readings

/-! ## Rules -/

namespace Reader

open Readings

variable {c : Cursor}

theorem descending_node (parts : Reader (Rule × List Tree)) (c : Cursor) :
    Descending (node parts c).found := descending_bind _ _

/-- The node of a rule has the span from the first token to the end. -/
theorem upTo_node (parts : Reader (Rule × List Tree)) (c : Cursor) (stop : ℕ) :
    (node parts c).upTo? stop = ((parts c).upTo? stop).map fun y =>
      (.node y.1.1 (c.rest.head?.map fun l => ⟨l.start, y.2.stop⟩) y.1.2, y.2) := by
  let g : Rule × List Tree → Cursor → Tree := fun x d =>
    .node x.1 (c.rest.head?.map fun l => ⟨l.start, d.stop⟩) x.2
  have hnode : node parts c = (parts c).bind fun x d => ⟨[(g x d, d)], max d.stop d.stop⟩ := rfl
  rw [hnode]
  exact upTo_bind_single (g := g) (fun _ _ => rfl) _ stop

theorem descending_rule (r : Rule) (parts : Reader (List Tree)) (c : Cursor) :
    Descending (Grammar.rule r parts c).found := descending_node _ c

theorem upTo_rule (r : Rule) (parts : Reader (List Tree)) (c : Cursor) (stop : ℕ) :
    (Grammar.rule r parts c).upTo? stop = ((parts c).upTo? stop).map fun y =>
      (.node r (c.rest.head?.map fun l => ⟨l.start, y.2.stop⟩) y.1, y.2) := by
  have hparts : (do return (r, ← parts) : Reader (Rule × List Tree)) c =
      (parts c).bind fun ts => pure (r, ts) := rfl
  unfold Grammar.rule
  rw [upTo_node, hparts, upTo_bind_single (g := fun ts _ => (r, ts)) fun _ _ => rfl, Option.map_map]
  rfl

/-- A rule whose parts have no reading has none. -/
theorem rule_found_nil {r : Rule} {parts : Reader (List Tree)} (h : (parts c).found = []) :
    (Grammar.rule r parts c).found = [] := by
  have hparts : ((do return (r, ← parts) : Reader (Rule × List Tree)) c).found = [] :=
    bind_found_nil h _
  exact bind_found_nil hparts _

/-- At the end of the tokens a chain has come to its end. -/
theorem upTo_chain_end (step : α → Reader α) (a : α) (h : c.rest = []) :
    (chain step a c).upTo? c.stop = some (a, c) := by
  have hchain : chain step a c = (pure a : Reader α) c := by
    unfold chain
    rw [h]
    rfl
  rw [hchain]
  exact List.find?_cons_of_pos (by simp)

end Reader

/-! ## Whole sources -/

namespace Cursor

variable {c d : Cursor} {w : List Lexeme}

/-- No place lies behind the last token. -/
theorem Passes.stop_le (h : Passes c w d) (ho : c.Ordered) : d.stop ≤ stopAfter c.stop c.rest := by
  have hd := ho.passes h
  have hlast : stopAfter c.stop c.rest = stopAfter d.stop d.rest := by
    rw [h.rest, stopAfter_append, h.stop]
  rw [hlast]
  unfold stopAfter
  cases hl : d.rest.getLast? with
  | none => exact le_rfl
  | some l =>
    have hmem : l.stop ∈ d.rest.map (·.stop) := List.mem_map_of_mem (List.mem_of_getLast? hl)
    exact ((List.pairwise_cons.1 hd).1 _ hmem).le

/-- A place is the last one exactly if no tokens are left. -/
theorem Passes.rest_nil_iff (h : Passes c w d) (ho : c.Ordered) :
    d.rest = [] ↔ d.stop = stopAfter c.stop c.rest := by
  have hlast : Passes c c.rest ⟨stopAfter c.stop c.rest, []⟩ := ⟨(List.append_nil _).symm, rfl⟩
  constructor
  · intro hrest
    have hw : c.rest = w := by simpa [hrest] using h.rest
    rw [hw, h.stop]
  · intro hstop
    rw [ho.eq_of_stop h hlast hstop]

end Cursor

/-- **The tree of a source is the reading that ends where its tokens end.** -/
theorem complete_eq_upTo {r : Reader Tree} {P : List Lexeme → Tree → Prop} (h : r.Yields P)
    {c : Cursor} (ho : c.Ordered) :
    (r c).complete? = ((r c).upTo? (Cursor.stopAfter c.stop c.rest)).map (·.1) := by
  have hsame : ∀ x ∈ (r c).found,
      x.2.rest.isEmpty = decide (x.2.stop = Cursor.stopAfter c.stop c.rest) := by
    intro x hx
    obtain ⟨w, hw, -⟩ := (h c).spans x hx
    rw [Bool.eq_iff_iff, List.isEmpty_iff, decide_eq_true_eq]
    exact hw.rest_nil_iff ho
  -- both searches go through the same readings, and their conditions agree on each
  change ((r c).found.find? fun x => x.2.rest.isEmpty).map (·.1) = _
  unfold Readings.upTo?
  congr 1
  revert hsame
  generalize (r c).found = found
  intro hsame
  induction found with
  | nil => rfl
  | cons x found ih =>
    obtain ⟨hx, hfound⟩ := List.forall_mem_cons.1 hsame
    rw [List.find?_cons, List.find?_cons, hx, ih hfound]

end Criterion

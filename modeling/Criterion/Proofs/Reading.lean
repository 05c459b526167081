import Criterion.Proofs.Derivation
import Criterion.Syntax.Readings

/-!
# What readers read

A reader goes from a place between the tokens to later places. Two kinds of statements say which:

* `Reader.Yields`: each reading spans some tokens, of which its value tells the truth. The furthest
  place is no further than others could go on from to such a reading.
* `Reader.Finds`: every word of a language, up to a length, is read to its end, and what begins one
  is gone through.

Readings that end at one place are merged, so a reader that finds a word may give it another value
than the one a derivation has in mind; that is why `Finds` says nothing about values.
-/

namespace Criterion

open Computability

variable {α β : Type}

/-! ## Places -/

namespace Cursor

/-- The end of the last of some tokens that follow a place, or the place itself. -/
def stopAfter (stop : ℕ) (w : List Lexeme) : ℕ := (w.getLast?.map (·.stop)).getD stop

/-- The tokens `w` lead from one place to another. -/
structure Passes (c : Cursor) (w : List Lexeme) (d : Cursor) : Prop where
  rest : c.rest = w ++ d.rest
  stop : d.stop = stopAfter c.stop w

/-- The tokens from a place on end one after the other. -/
def Ordered (c : Cursor) : Prop := (c.stop :: c.rest.map (·.stop)).Pairwise (· < ·)

variable {c d e : Cursor} {u v w : List Lexeme}

theorem stopAfter_append (stop : ℕ) (u v : List Lexeme) :
    stopAfter stop (u ++ v) = stopAfter (stopAfter stop u) v := by
  cases v using List.reverseRecOn with
  | nil => simp [stopAfter]
  | append_singleton v l => simp [stopAfter, ← List.append_assoc]

theorem Passes.refl (c : Cursor) : Passes c [] c := ⟨rfl, rfl⟩

theorem Passes.trans (h : Passes c u d) (h' : Passes d v e) : Passes c (u ++ v) e :=
  ⟨by rw [h.rest, h'.rest, List.append_assoc], by rw [h'.stop, h.stop, stopAfter_append]⟩

/-- Between two words there is a place. -/
theorem Passes.split (h : Passes c (u ++ v) e) : ∃ d, Passes c u d ∧ Passes d v e :=
  ⟨⟨stopAfter c.stop u, v ++ e.rest⟩, ⟨by rw [h.rest, List.append_assoc], rfl⟩,
    ⟨rfl, by rw [h.stop, stopAfter_append]⟩⟩

theorem Passes.singleton {l : Lexeme} {rest : List Lexeme} (h : c.rest = l :: rest) :
    Passes c [l] ⟨l.stop, rest⟩ := ⟨h, rfl⟩

theorem Passes.unique (h : Passes c u d) (h' : Passes c v d) : u = v :=
  List.append_cancel_right (h.rest.symm.trans h'.rest)

/-- The end of a word is the end of one of the tokens from its place on. -/
theorem Passes.getElem_stop (h : Passes c w d) :
    (c.stop :: c.rest.map (·.stop))[w.length]? = some d.stop := by
  rw [h.rest, h.stop]
  cases w using List.reverseRecOn with
  | nil => rfl
  | append_singleton w l => simp [stopAfter]

/-- A place is told by its end. -/
theorem Ordered.eq_of_stop (ho : Ordered c) (h : Passes c u d) (h' : Passes c v e)
    (hs : d.stop = e.stop) : d = e := by
  have hd := h.getElem_stop
  have he := h'.getElem_stop
  have hnodup : (c.stop :: c.rest.map (·.stop)).Nodup := ho.imp fun h => Nat.ne_of_lt h
  have hlength : u.length = v.length := by
    obtain ⟨hu, hu'⟩ := List.getElem?_eq_some_iff.1 hd
    obtain ⟨hv, hv'⟩ := List.getElem?_eq_some_iff.1 he
    exact hnodup.getElem_inj_iff.1 (by rw [hu', hv', hs])
  have hrest : u ++ d.rest = v ++ e.rest := h.rest.symm.trans h'.rest
  obtain ⟨-, hr⟩ := List.append_inj hrest hlength
  obtain ⟨stop, rest⟩ := d
  obtain ⟨stop', rest'⟩ := e
  simp_all

theorem Ordered.passes (ho : Ordered c) (h : Passes c w d) : Ordered d := by
  unfold Ordered at ho ⊢
  rw [h.rest] at ho
  cases w using List.reverseRecOn with
  | nil => simpa [h.stop, stopAfter] using ho
  | append_singleton w l =>
    have hstop : d.stop = l.stop := by simp [h.stop, stopAfter]
    rw [hstop]
    have hsuffix : (l.stop :: d.rest.map (·.stop)) <:+ c.stop :: (w ++ [l] ++ d.rest).map (·.stop) :=
      ⟨c.stop :: w.map (·.stop), by simp⟩
    exact ho.sublist hsuffix.sublist

/-- A place reached by some tokens lies behind. -/
theorem Passes.le_stop (h : Passes c w d) (ho : Ordered c) : c.stop ≤ d.stop := by
  have hmem : d.stop ∈ c.stop :: c.rest.map (·.stop) := List.mem_of_getElem? h.getElem_stop
  rcases List.mem_cons.1 hmem with hstop | hstop
  · exact hstop.ge
  · exact ((List.pairwise_cons.1 ho).1 _ hstop).le

end Cursor

/-! ## Merged readings -/

namespace Readings

/-- Some reading ends there. -/
def EndsAt (found : List (α × Cursor)) (stop : ℕ) : Prop := ∃ y ∈ found, y.2.stop = stop

variable {x y : α × Cursor} {found more : List (α × Cursor)} {stop : ℕ}

theorem of_mem_insert (h : y ∈ insert x found) : y = x ∨ y ∈ found := by
  induction found with
  | nil => exact .inl (List.mem_singleton.1 h)
  | cons z rest ih =>
    unfold insert at h
    split at h
    · exact List.mem_cons.1 h
    split at h
    · exact .inr h
    rcases List.mem_cons.1 h with rfl | h
    · exact .inr List.mem_cons_self
    · exact (ih h).imp_right (List.mem_cons_of_mem _)

theorem mem_insert_of_mem (h : y ∈ found) : y ∈ insert x found := by
  induction found with
  | nil => cases h
  | cons z rest ih =>
    unfold insert
    split
    · exact List.mem_cons_of_mem _ h
    split
    · exact h
    rcases List.mem_cons.1 h with rfl | h
    · exact List.mem_cons_self
    · exact List.mem_cons_of_mem _ (ih h)

theorem endsAt_insert (x : α × Cursor) (found : List (α × Cursor)) :
    EndsAt (insert x found) x.2.stop := by
  induction found with
  | nil => exact ⟨x, List.mem_singleton_self x, rfl⟩
  | cons z rest ih =>
    unfold insert
    split
    · exact ⟨x, List.mem_cons_self, rfl⟩
    split
    · rename_i h; exact ⟨z, List.mem_cons_self, h.symm⟩
    · obtain ⟨y, hy, hstop⟩ := ih
      exact ⟨y, List.mem_cons_of_mem _ hy, hstop⟩

theorem EndsAt.insert (h : EndsAt found stop) : EndsAt (insert x found) stop :=
  h.imp fun _ h => ⟨mem_insert_of_mem h.1, h.2⟩

theorem of_mem_foldl_insert :
    ∀ {found : List (α × Cursor)}, y ∈ more.foldl (fun found r => insert r found) found →
      y ∈ found ∨ y ∈ more := by
  induction more with
  | nil => exact fun h => .inl h
  | cons z rest ih =>
    intro found h
    rcases ih h with h | h
    · rcases of_mem_insert h with rfl | h
      · exact .inr List.mem_cons_self
      · exact .inl h
    · exact .inr (List.mem_cons_of_mem _ h)

theorem EndsAt.foldl_insert : ∀ {found : List (α × Cursor)}, EndsAt found stop ∨ EndsAt more stop →
    EndsAt (more.foldl (fun found r => Readings.insert r found) found) stop := by
  induction more with
  | nil => exact fun h => h.elim id fun h => absurd h (by simp [EndsAt])
  | cons z rest ih =>
    intro found h
    refine ih ?_
    rcases h with h | ⟨y, hy, rfl⟩
    · exact .inl h.insert
    rcases List.mem_cons.1 hy with rfl | hy
    · exact .inl (endsAt_insert y found)
    · exact .inr ⟨y, hy, rfl⟩

/-- A merged reading is one of the two. -/
theorem of_mem_union {r s : Readings α} (h : y ∈ (r.union s).found) : y ∈ r.found ∨ y ∈ s.found :=
  of_mem_foldl_insert h

/-- Merging loses no end. -/
theorem EndsAt.union {r s : Readings α} (h : EndsAt r.found stop ∨ EndsAt s.found stop) :
    EndsAt (r.union s).found stop := EndsAt.foldl_insert h

theorem of_mem_foldl_union {f : α → Reader β} {z : β × Cursor} {found : List (α × Cursor)} :
    ∀ {all : Readings β}, z ∈ (found.foldl (fun all (a, c) => all.union (f a c)) all).found →
      z ∈ all.found ∨ ∃ y ∈ found, z ∈ (f y.1 y.2).found := by
  induction found with
  | nil => exact fun h => .inl h
  | cons y rest ih =>
    intro all h
    rcases ih h with h | ⟨y', hy', h⟩
    · exact (of_mem_union h).imp_right fun h => ⟨y, List.mem_cons_self, h⟩
    · exact .inr ⟨y', List.mem_cons_of_mem _ hy', h⟩

theorem EndsAt.foldl_union {f : α → Reader β} {found : List (α × Cursor)} :
    ∀ {all : Readings β},
      (EndsAt all.found stop ∨ ∃ y ∈ found, EndsAt (f y.1 y.2).found stop) →
        EndsAt (found.foldl (fun all (a, c) => all.union (f a c)) all).found stop := by
  induction found with
  | nil => exact fun h => h.elim id fun ⟨_, h, _⟩ => absurd h List.not_mem_nil
  | cons y rest ih =>
    intro all h
    refine ih ?_
    rcases h with h | ⟨y', hy', h⟩
    · exact .inl (.union (.inl h))
    rcases List.mem_cons.1 hy' with rfl | hy'
    · exact .inl (.union (.inr h))
    · exact .inr ⟨y', hy', h⟩

/-- A reading of two readers goes on from a reading of the first one. -/
theorem of_mem_bind {r : Readings α} {f : α → Reader β} {z : β × Cursor}
    (h : z ∈ (r.bind f).found) : ∃ y ∈ r.found, z ∈ (f y.1 y.2).found :=
  (of_mem_foldl_union h).elim (fun h => absurd h List.not_mem_nil) id

/-- Going on from each reading loses no end. -/
theorem EndsAt.bind {r : Readings α} {f : α → Reader β} (hy : y ∈ r.found)
    (h : EndsAt (f y.1 y.2).found stop) : EndsAt (r.bind f).found stop :=
  EndsAt.foldl_union (.inr ⟨y, hy, h⟩)

/-! ## Furthest places -/

theorem reached_foldl_union (f : α → Reader β) (found : List (α × Cursor)) : ∀ all : Readings β,
    (found.foldl (fun all (a, c) => all.union (f a c)) all).reached = all.reached ∨
      ∃ y ∈ found, (found.foldl (fun all (a, c) => all.union (f a c)) all).reached =
        (f y.1 y.2).reached := by
  induction found with
  | nil => exact fun all => .inl rfl
  | cons y rest ih =>
    intro all
    rcases ih (all.union (f y.1 y.2)) with h | ⟨z, hz, h⟩
    · rcases max_choice all.reached (f y.1 y.2).reached with hmax | hmax
      · exact .inl (h.trans hmax)
      · exact .inr ⟨y, List.mem_cons_self, h.trans hmax⟩
    · exact .inr ⟨z, List.mem_cons_of_mem _ hz, h⟩

theorem le_reached_foldl_union (f : α → Reader β) (found : List (α × Cursor)) : ∀ all : Readings β,
    all.reached ≤ (found.foldl (fun all (a, c) => all.union (f a c)) all).reached ∧
      ∀ y ∈ found, (f y.1 y.2).reached ≤
        (found.foldl (fun all (a, c) => all.union (f a c)) all).reached := by
  induction found with
  | nil => exact fun all => ⟨le_rfl, fun y hy => absurd hy List.not_mem_nil⟩
  | cons y rest ih =>
    intro all
    obtain ⟨hall, hrest⟩ := ih (all.union (f y.1 y.2))
    refine ⟨(le_max_left _ _).trans hall, fun z hz => ?_⟩
    rcases List.mem_cons.1 hz with rfl | hz
    · exact (le_max_right _ _).trans hall
    · exact hrest z hz

/-- Two readers get as far as the first one, or as the second one behind a reading of the first. -/
theorem reached_bind (r : Readings α) (f : α → Reader β) : (r.bind f).reached = r.reached ∨
    ∃ y ∈ r.found, (r.bind f).reached = (f y.1 y.2).reached := reached_foldl_union f r.found _

theorem reached_le_bind (r : Readings α) (f : α → Reader β) : r.reached ≤ (r.bind f).reached :=
  (le_reached_foldl_union f r.found ⟨[], r.reached⟩).1

theorem le_reached_bind {r : Readings α} (f : α → Reader β) (hy : y ∈ r.found) :
    (f y.1 y.2).reached ≤ (r.bind f).reached := (le_reached_foldl_union f r.found ⟨[], r.reached⟩).2 y hy

/-- Each reading spans some tokens, of which its value tells the truth. The tokens up to the furthest
place begin some tokens of which a value would. -/
structure Tell (x : Readings α) (c : Cursor) (P : List Lexeme → α → Prop) : Prop where
  spans : ∀ y ∈ x.found, ∃ w, c.Passes w y.2 ∧ P w y.1
  reach : ∃ v d, c.Passes v d ∧ x.reached = d.stop ∧ ∃ w a, P (v ++ w) a

end Readings

namespace Reader

/-! ## Readings tell the truth -/

/-- The readings from every place tell the truth. -/
def Yields (r : Reader α) (P : List Lexeme → α → Prop) : Prop := ∀ c, (r c).Tell c P

variable {r s : Reader α} {P Q : List Lexeme → α → Prop} {R : List Lexeme → β → Prop}
  {a : α} {f g : α → Reader β}

/-- There is something to tell. -/
theorem Yields.inhabited (h : r.Yields P) : ∃ w a, P w a := by
  obtain ⟨v, -, -, -, w, a, hP⟩ := (h ⟨0, []⟩).reach
  exact ⟨v ++ w, a, hP⟩

theorem Yields.mono (h : r.Yields P) (hPQ : ∀ w a, P w a → Q w a) : r.Yields Q := by
  refine fun c => ⟨fun x hx => ?_, ?_⟩
  · obtain ⟨w, hw, hP⟩ := (h c).spans x hx
    exact ⟨w, hw, hPQ w _ hP⟩
  · obtain ⟨v, d, hv, hreached, w, a, hP⟩ := (h c).reach
    exact ⟨v, d, hv, hreached, w, a, hPQ _ a hP⟩

theorem yields_pure (h : P [] a) : (pure a : Reader α).Yields P := by
  refine fun c => ⟨fun x hx => ?_, [], c, .refl c, rfl, [], a, h⟩
  obtain rfl := List.mem_singleton.1 hx
  exact ⟨[], .refl c, h⟩

/-- A reader without readings still stands where something could be read. -/
theorem yields_none (h : ∃ w a, P w a) : (Reader.none : Reader α).Yields P :=
  fun c => ⟨fun _ hx => absurd hx List.not_mem_nil, [], c, .refl c, rfl, h⟩

/-- One reader after the other: what the second one tells of its tokens is told of both. -/
theorem Yields.bind (hr : r.Yields P) (hf : ∀ u a, P u a → (f a).Yields fun v b => R (u ++ v) b) :
    (r >>= f).Yields R := by
  refine fun c => ⟨fun x hx => ?_, ?_⟩
  · obtain ⟨y, hy, hx⟩ := Readings.of_mem_bind hx
    obtain ⟨u, hu, hP⟩ := (hr c).spans y hy
    obtain ⟨v, hv, hR⟩ := (hf u y.1 hP y.2).spans x hx
    exact ⟨u ++ v, hu.trans hv, hR⟩
  rcases Readings.reached_bind (r c) f with hreached | ⟨y, hy, hreached⟩
  · -- the second reader would have something to tell behind the end of the first one's tokens
    obtain ⟨v, d, hv, hd, w, a, hP⟩ := (hr c).reach
    obtain ⟨w', b, hR⟩ := (hf _ a hP).inhabited
    exact ⟨v, d, hv, hreached.trans hd, w ++ w', b, by rwa [← List.append_assoc]⟩
  · obtain ⟨u, hu, hP⟩ := (hr c).spans y hy
    obtain ⟨v, d, hv, hd, w, b, hR⟩ := (hf u y.1 hP y.2).reach
    exact ⟨u ++ v, d, hu.trans hv, hreached.trans hd, w, b, by rwa [List.append_assoc]⟩

theorem tell_union {x y : Readings α} {c : Cursor} (hx : x.Tell c P) (hy : y.Tell c P) :
    (x.union y).Tell c P := by
  refine ⟨fun z hz => (Readings.of_mem_union hz).elim (hx.spans z) (hy.spans z), ?_⟩
  have hmax : (x.union y).reached = max x.reached y.reached := rfl
  rcases max_choice x.reached y.reached with h | h
  · rw [hmax, h]
    exact hx.reach
  · rw [hmax, h]
    exact hy.reach

theorem Yields.either (hr : r.Yields P) (hs : s.Yields P) : (r.either s).Yields P :=
  fun c => tell_union (hr c) (hs c)

theorem Yields.fork (hr : r.Yields P) (hf : ∀ u a, P u a → (f a).Yields fun v b => R (u ++ v) b)
    (hg : ∀ u a, P u a → (g a).Yields fun v b => R (u ++ v) b) : (r.fork f g).Yields R :=
  fun c => tell_union (hr.bind hf c) (hr.bind hg c)

theorem yields_oneOf {rs : List (Reader α)} (h : ∀ s ∈ r :: rs, s.Yields P) :
    (oneOf (r :: rs)).Yields P := by
  have hfirst := h r List.mem_cons_self
  induction rs generalizing r with
  | nil => exact hfirst.either (yields_none hfirst.inhabited)
  | cons s rest ih =>
    have hrest : ∀ s' ∈ s :: rest, s'.Yields P := fun s' hs' => h s' (List.mem_cons_of_mem _ hs')
    exact hfirst.either (ih hrest (hrest s List.mem_cons_self))

/-- A token is read, or nothing. -/
theorem token_cases (kinds : List Terminal) (c : Cursor) : token kinds c = ⟨[], c.stop⟩ ∨
    ∃ l d, c.Passes [l] d ∧ l.kind ∈ kinds ∧ token kinds c = ⟨[(.token l.token, d)], d.stop⟩ := by
  unfold token
  split
  · rename_i l rest hrest
    split
    · rename_i hl
      exact .inr ⟨l, _, .singleton hrest, List.contains_iff_mem.1 hl, rfl⟩
    · exact .inl rfl
  · exact .inl rfl

/-- A token, if there is something to tell of one. -/
theorem yields_token_of {kinds : List Terminal} {P : List Lexeme → Tree → Prop} (hP : ∃ w t, P w t)
    (h : ∀ l : Lexeme, l.kind ∈ kinds → P [l] (.token l.token)) : (token kinds).Yields P := by
  intro c
  rcases token_cases kinds c with hread | ⟨l, d, hw, hl, hread⟩
  · rw [hread]
    exact yields_none hP c
  · rw [hread]
    refine ⟨fun x hx => ?_, [l], d, hw, rfl, [], _, h l hl⟩
    obtain rfl := List.mem_singleton.1 hx
    exact ⟨[l], hw, h l hl⟩

theorem yields_token {kind : Terminal} {kinds : List Terminal} :
    (token (kind :: kinds)).Yields fun w t =>
      ∃ l : Lexeme, w = [l] ∧ l.kind ∈ kind :: kinds ∧ t = .token l.token :=
  yields_token_of ⟨_, _, ⟨kind, "", 0, 0⟩, rfl, List.mem_cons_self, rfl⟩ fun l hl => ⟨l, rfl, hl, rfl⟩

/-- A token and what follows it. -/
theorem yields_token_bind {kind : Terminal} {kinds : List Terminal} {f : Tree → Reader β}
    (h : ∀ l : Lexeme, l.kind ∈ kind :: kinds → (f (.token l.token)).Yields fun v b => R (l :: v) b) :
    (token (kind :: kinds) >>= f).Yields R := by
  refine yields_token.bind ?_
  rintro _ _ ⟨l, rfl, hl, rfl⟩
  exact h l hl

/-- A token without a tree and what follows it. -/
theorem yields_skip_bind {kind : Terminal} {f : Unit → Reader β}
    (h : ∀ l : Lexeme, l.kind ∈ [kind] → (f ()).Yields fun v b => R (l :: v) b) :
    (skip kind >>= f).Yields R := by
  have hskip : (skip kind).Yields fun w _ => ∃ l : Lexeme, w = [l] ∧ l.kind ∈ [kind] :=
    yields_token_bind fun l hl => yields_pure ⟨l, rfl, hl⟩
  refine hskip.bind ?_
  rintro _ _ ⟨l, rfl, hl⟩
  exact h l hl

theorem yields_steps {step : α → Reader α} {I : List Lexeme → α → Prop}
    (h : ∀ u a, I u a → (step a).Yields fun v b => I (u ++ v) b) (fuel : ℕ) :
    ∀ u a, I u a → (steps step fuel a).Yields fun v b => I (u ++ v) b := by
  induction fuel with
  | zero => intro u a hI; exact yields_pure (by simpa using hI)
  | succ fuel ih =>
    intro u a hI
    refine .either ((h u a hI).bind fun v b hb => ?_) (yields_pure (by simpa using hI))
    simpa only [List.append_assoc] using ih (u ++ v) b hb

/-- What every step keeps, a chain of steps keeps. -/
theorem yields_chain {step : α → Reader α} {I : List Lexeme → α → Prop}
    (h : ∀ u a, I u a → (step a).Yields fun v b => I (u ++ v) b) {u : List Lexeme} (hI : I u a) :
    (chain step a).Yields fun v b => I (u ++ v) b :=
  fun c => yields_steps h c.rest.length u a hI c

/-- Items with a comma between each two, and the tokens of all. -/
inductive Listed (P : List Lexeme → α → Prop) : List Lexeme → List α → Prop where
  | one {w : List Lexeme} {a : α} : P w a → Listed P w [a]
  | snoc {u v : List Lexeme} {l : Lexeme} {as : List α} {a : α} :
    Listed P u as → l.kind ∈ [Terminal.comma] → P v a → Listed P (u ++ l :: v) (as ++ [a])

theorem Yields.separated (h : r.Yields P) : (separated r).Yields (Listed P) := by
  refine h.bind fun u a ha => yields_chain (fun u as has => ?_) (.one ha)
  refine yields_skip_bind fun l hl => h.bind fun v b hb => yields_pure ?_
  rw [List.append_nil]
  exact .snoc has hl hb

/-! ## Spans -/

theorem spanOf_append {u v : List Lexeme} (hu : u ≠ []) (hv : v ≠ []) (stop : ℕ) :
    spanOf (u ++ v) = (spanOf u).map fun s => ⟨s.start, Cursor.stopAfter stop v⟩ := by
  cases v using List.reverseRecOn with
  | nil => exact absurd rfl hv
  | append_singleton v l =>
    cases u with
    | nil => exact absurd rfl hu
    | cons l' u => simp [spanOf, Cursor.stopAfter, List.getLast?_cons, ← List.append_assoc]

theorem spanOf_cons (l : Lexeme) (w : List Lexeme) (stop : ℕ) :
    spanOf (l :: w) = some ⟨l.start, Cursor.stopAfter stop (l :: w)⟩ := by
  simp [spanOf, Cursor.stopAfter, List.getLast?_cons]

/-- What is made of some parts and of the place behind them. -/
theorem tell_closed {c : Cursor} {make : α → ℕ → β} (h : (r c).Tell c P)
    (hmake : ∀ w a d, c.Passes w d → P w a → R w (make a d.stop))
    (hR : ∀ w a, P w a → ∃ b, R w b) :
    Readings.Tell ((do
      let a ← r
      let stop ← position
      return make a stop : Reader β) c) c R := by
  refine ⟨fun x hx => ?_, ?_⟩
  · obtain ⟨⟨a, d⟩, ha, hx⟩ := Readings.of_mem_bind hx
    obtain ⟨⟨stop, d'⟩, hposition, hx⟩ := Readings.of_mem_bind hx
    obtain ⟨w, hw, hP⟩ := h.spans _ ha
    cases List.mem_singleton.1 hposition
    cases List.mem_singleton.1 hx
    exact ⟨w, hw, hmake w a d hw hP⟩
  rcases Readings.reached_bind (r c) (fun a => do
      let stop ← position
      return make a stop) with hreached | ⟨y, hy, hreached⟩
  · obtain ⟨v, d, hv, hd, w, a, hP⟩ := h.reach
    exact ⟨v, d, hv, hreached.trans hd, w, hR _ a hP⟩
  · obtain ⟨w, hw, hP⟩ := h.spans y hy
    refine ⟨w, y.2, hw, hreached.trans (max_self _), [], ?_⟩
    rw [List.append_nil]
    exact hR w y.1 hP

/-- The node of a rule spans the tokens of its parts. -/
theorem Yields.node {parts : Reader (Rule × List Tree)} {P : List Lexeme → Rule × List Tree → Prop}
    (h : parts.Yields P) (hne : ∀ w x, P w x → w ≠ []) :
    (node parts).Yields fun w t => ∃ rule ts, P w (rule, ts) ∧ t = .node rule (spanOf w) ts := by
  refine fun c => tell_closed (h c) (fun w x d hw hP => ⟨x.1, x.2, hP, ?_⟩)
    fun w x hP => ⟨_, x.1, x.2, hP, rfl⟩
  match w, hw, hne w _ hP with
  | l :: w, hw, _ =>
    rw [spanOf_cons l w c.stop, ← hw.stop]
    simp [hw.rest]

/-- The node of a rule that begins with a tree read before spans that tree and its parts. -/
theorem Yields.extend {rule : Rule} {left : Tree} {u : List Lexeme} {parts : Reader (List Tree)}
    {P : List Lexeme → List Tree → Prop} (h : parts.Yields P) (hne : ∀ w ts, P w ts → w ≠ [])
    (hleft : left.span = spanOf u) (hu : u ≠ []) :
    (extend rule left parts).Yields fun v t =>
      ∃ ts, P v ts ∧ t = .node rule (spanOf (u ++ v)) (left :: ts) := by
  refine fun c => tell_closed (h c) (fun w ts d hw hP => ⟨ts, hP, ?_⟩) fun w ts hP => ⟨_, ts, hP, rfl⟩
  rw [spanOf_append hu (hne w ts hP) c.stop, ← hw.stop, ← hleft]

/-! ## Readings miss nothing -/

instance : Nonempty Rule := ⟨.list⟩

instance : Nonempty Tree := ⟨.node .list .none []⟩

/-- Some word of a language begins with these tokens. -/
def Opens (L : Language Lexeme) (v : List Lexeme) : Prop := ∃ w, v ++ w ∈ L

/-- Every word of a language with fewer than `k` tokens is read to its end. Fewer than `k` tokens that begin
a word are gone through. -/
structure Finds (r : Reader α) (k : ℕ) (L : Language Lexeme) : Prop where
  steady : r.Yields fun _ _ => True
  found : ∀ c w d, c.Ordered → c.Passes w d → w.length < k → w ∈ L → ∃ a, (a, d) ∈ (r c).found
  gone : ∀ c v d, c.Ordered → c.Passes v d → v.length < k → Opens L v → d.stop ≤ (r c).reached

variable {k m : ℕ} {L M N : Language Lexeme}

theorem Opens.mono {v : List Lexeme} (h : Opens L v) (hLM : L ≤ M) : Opens M v :=
  h.imp fun _ hw => hLM hw

theorem Opens.add {v : List Lexeme} (h : Opens (L + M) v) : Opens L v ∨ Opens M v := by
  obtain ⟨w, hL | hM⟩ := h
  · exact .inl ⟨w, hL⟩
  · exact .inr ⟨w, hM⟩

/-- What begins words of two languages, one after the other, begins a word of the first, or goes on behind
one. -/
theorem Opens.mul {v : List Lexeme} (h : Opens (L * M) v) :
    Opens L v ∨ ∃ u ∈ L, ∃ v', v = u ++ v' ∧ Opens M v' := by
  obtain ⟨w, hw⟩ := h
  obtain ⟨u, hu, m, hm, huv⟩ := Language.mem_mul.1 hw
  rcases List.append_eq_append_iff.1 huv with ⟨v', rfl, rfl⟩ | ⟨u', rfl, -⟩
  · exact .inr ⟨u, hu, v', rfl, w, hm⟩
  · exact .inl ⟨u', hu⟩

/-- No reader goes back. -/
theorem Yields.le_reached (h : r.Yields P) {c : Cursor} (ho : c.Ordered) : c.stop ≤ (r c).reached := by
  obtain ⟨v, d, hv, hd, -⟩ := (h c).reach
  rw [hd]
  exact hv.le_stop ho

/-- It is enough that some reading ends where the word does. -/
theorem Yields.finds (hr : r.Yields P) (h : ∀ c w d, c.Ordered → c.Passes w d → w.length < k →
      w ∈ L → Readings.EndsAt (r c).found d.stop)
    (h' : ∀ c v d, c.Ordered → c.Passes v d → v.length < k → Opens L v → d.stop ≤ (r c).reached) :
    r.Finds k L where
  steady := hr.mono fun _ _ _ => trivial
  found c w d ho hw hk hL := by
    obtain ⟨⟨a, e⟩, ha, hstop⟩ := h c w d ho hw hk hL
    obtain ⟨v, hv, -⟩ := (hr c).spans _ ha
    exact ⟨a, ho.eq_of_stop hv hw hstop ▸ ha⟩
  gone := h'

theorem Finds.endsAt (h : r.Finds k L) {c d : Cursor} {w : List Lexeme} (ho : c.Ordered)
    (hw : c.Passes w d) (hk : w.length < k) (hL : w ∈ L) : Readings.EndsAt (r c).found d.stop := by
  obtain ⟨a, ha⟩ := h.found c w d ho hw hk hL
  exact ⟨_, ha, rfl⟩

theorem Finds.mono (h : r.Finds k L) (hm : m ≤ k) (hML : M ≤ L) : r.Finds m M :=
  ⟨h.steady, fun c w d ho hw hk hM => h.found c w d ho hw (Nat.lt_of_lt_of_le hk hm) (hML hM),
    fun c v d ho hv hk hM => h.gone c v d ho hv (Nat.lt_of_lt_of_le hk hm) (hM.mono hML)⟩

theorem finds_pure (a : α) : (pure a : Reader α).Finds k 1 := by
  refine ⟨yields_pure trivial, fun c w d ho hw hk hL => ⟨a, ?_⟩, fun c v d ho hv hk hL => ?_⟩
  · obtain rfl := (Language.mem_one w).1 hL
    obtain rfl := ho.eq_of_stop hw (.refl c) hw.stop
    exact List.mem_singleton_self _
  · obtain ⟨w, hw⟩ := hL
    obtain ⟨rfl, -⟩ := List.append_eq_nil_iff.1 ((Language.mem_one _).1 hw)
    exact hv.stop.le

theorem finds_none [Nonempty α] : (Reader.none : Reader α).Finds k 0 :=
  ⟨yields_none ⟨[], Classical.arbitrary α, trivial⟩,
    fun _ w _ _ _ _ hL => absurd hL (Language.notMem_zero w),
    fun _ _ _ _ _ _ ⟨_, hL⟩ => absurd hL (Language.notMem_zero _)⟩

theorem Finds.weaken (h : r.Finds (k + 1) L) : r.Finds k L := h.mono (Nat.le_succ k) le_rfl

/-- Two languages of one reader. -/
theorem Finds.add (h : r.Finds k L) (h' : r.Finds k M) : r.Finds k (L + M) :=
  ⟨h.steady, fun c w d ho hw hk hLM => hLM.elim (h.found c w d ho hw hk) (h'.found c w d ho hw hk),
    fun c v d ho hv hk hLM => hLM.add.elim (h.gone c v d ho hv hk) (h'.gone c v d ho hv hk)⟩

/-- The second reader only meets true values, and what the first leaves of the length. -/
theorem Finds.bind_of_length (h : r.Finds k L) (hP : r.Yields P)
    (hsteady : (r >>= f).Yields fun _ _ => True)
    (hf : ∀ u ∈ L, ∀ a, P u a → (f a).Finds m M)
    (hlength : ∀ u v, u ∈ L → (u ++ v).length < k → v.length < m) : (r >>= f).Finds k (L * M) := by
  -- behind each word of the first language, the second reader goes on
  have hsecond : ∀ {c e u v}, c.Ordered → c.Passes (u ++ v) e → (u ++ v).length < k → u ∈ L →
      ∃ a d, (a, d) ∈ (r c).found ∧ d.Passes v e ∧ d.Ordered ∧ (f a).Finds m M ∧ v.length < m := by
    intro c e u v ho hw hk hu
    obtain ⟨d, hcd, hde⟩ := hw.split
    have hlt : u.length < k := by rw [List.length_append] at hk; omega
    obtain ⟨a, ha⟩ := h.found c u d ho hcd hlt hu
    obtain ⟨u', hcd', hPa⟩ := (hP c).spans _ ha
    obtain rfl := hcd'.unique hcd
    exact ⟨a, d, ha, hde, ho.passes hcd, hf u' hu a hPa, hlength u' v hu hk⟩
  refine hsteady.finds (fun c w e ho hw hk hL => ?_) fun c w e ho hw hk hL => ?_
  · obtain ⟨u, hu, v, hv, rfl⟩ := Language.mem_mul.1 hL
    obtain ⟨a, d, ha, hde, hd, hfa, hm⟩ := hsecond ho hw hk hu
    exact .bind ha (hfa.endsAt hd hde hm hv)
  · rcases hL.mul with hL | ⟨u, hu, v, rfl, hv⟩
    · exact (h.gone c w e ho hw hk hL).trans (Readings.reached_le_bind (r c) f)
    · obtain ⟨a, d, ha, hde, hd, hfa, hm⟩ := hsecond ho hw hk hu
      exact (hfa.gone d v e hd hde hm hv).trans (Readings.le_reached_bind f ha)

theorem Finds.bind (h : r.Finds k L) (hf : ∀ a, (f a).Finds k M) : (r >>= f).Finds k (L * M) :=
  h.bind_of_length h.steady (h.steady.bind fun _ a _ => (hf a).steady) (fun _ _ a _ => hf a)
    fun u v _ hk => by rw [List.length_append] at hk; omega

/-- A first reader that takes a token at least leaves a shorter word. -/
theorem Finds.bind_shorter (h : r.Finds (k + 1) L) (hL : [] ∉ L) (hf : ∀ a, (f a).Finds k M) :
    (r >>= f).Finds (k + 1) (L * M) := by
  refine h.bind_of_length h.steady (h.steady.bind fun _ a _ => (hf a).steady) (fun _ _ a _ => hf a)
    fun u v hu hk => ?_
  have hpos : 0 < u.length := List.length_pos_iff.2 fun h => hL (h ▸ hu)
  rw [List.length_append] at hk
  omega

theorem finds_token (kinds : List Terminal) : (token kinds).Finds k (tokenOf kinds) := by
  have hsteady : (token kinds).Yields fun _ _ => True :=
    yields_token_of ⟨[], Classical.arbitrary Tree, trivial⟩ fun _ _ => trivial
  have hread : ∀ {c d : Cursor} {l : Lexeme}, c.Passes [l] d → l.kind ∈ kinds →
      token kinds c = ⟨[(.token l.token, ⟨d.stop, d.rest⟩)], d.stop⟩ := by
    intro c d l hw hl
    have hrest : c.rest = l :: d.rest := hw.rest
    have hstop : d.stop = l.stop := hw.stop
    unfold token
    rw [hrest, hstop]
    exact if_pos (List.contains_iff_mem.2 hl)
  refine hsteady.finds (fun c w d ho hw hk hL => ?_) fun c v d ho hv hk hL => ?_
  · obtain ⟨l, rfl, hl⟩ := hL
    rw [hread hw hl]
    exact ⟨_, List.mem_singleton_self _, rfl⟩
  · obtain ⟨w, l, hw, hl⟩ := hL
    rcases List.append_eq_cons_iff.1 hw with ⟨rfl, -⟩ | ⟨v', rfl, hv'⟩
    · exact hv.stop.trans_le (hsteady.le_reached ho)
    · obtain ⟨rfl, -⟩ := List.append_eq_nil_iff.1 hv'.symm
      rw [hread hv hl]

theorem nil_notMem_tokenOf (kinds : List Terminal) : [] ∉ tokenOf kinds := by
  rintro ⟨l, hl, -⟩
  cases hl

theorem finds_skip (kind : Terminal) : (skip kind).Finds k (tokenOf [kind]) := by
  have h := (finds_token (k := k) [kind]).bind fun _ => finds_pure ()
  rwa [mul_one] at h

theorem finds_token_bind {kinds : List Terminal} {f : Tree → Reader β}
    (hf : ∀ t, (f t).Finds k M) : (token kinds >>= f).Finds (k + 1) (tokenOf kinds * M) :=
  (finds_token kinds).bind_shorter (nil_notMem_tokenOf kinds) hf

theorem finds_skip_bind {kind : Terminal} {f : Unit → Reader β} (hf : (f ()).Finds k M) :
    (skip kind >>= f).Finds (k + 1) (tokenOf [kind] * M) :=
  (finds_skip kind).bind_shorter (nil_notMem_tokenOf [kind]) fun _ => hf

theorem Finds.either (h : r.Finds k L) (h' : s.Finds k M) : (r.either s).Finds k (L + M) := by
  refine (h.steady.either h'.steady).finds (fun c w d ho hw hk hLM => .union ?_)
    fun c v d ho hv hk hLM => le_max_iff.2 ?_
  · exact hLM.imp (h.endsAt ho hw hk) (h'.endsAt ho hw hk)
  · exact hLM.add.imp (h.gone c v d ho hv hk) (h'.gone c v d ho hv hk)

theorem Finds.fork (h : r.Finds k L) (hf : ∀ a, (f a).Finds k M) (hg : ∀ a, (g a).Finds k N) :
    (r.fork f g).Finds k (L * M + L * N) := by
  have hsteady : (r.fork f g).Yields fun _ _ => True :=
    h.steady.fork (fun _ a _ => (hf a).steady) fun _ a _ => (hg a).steady
  refine hsteady.finds (fun c w d ho hw hk hLM => .union ?_)
    fun c v d ho hv hk hLM => le_max_iff.2 ?_
  · exact hLM.imp ((h.bind hf).endsAt ho hw hk) ((h.bind hg).endsAt ho hw hk)
  · exact hLM.add.imp ((h.bind hf).gone c v d ho hv hk) ((h.bind hg).gone c v d ho hv hk)

theorem finds_oneOf_nil [Nonempty α] : (oneOf [] : Reader α).Finds k 0 := finds_none

theorem finds_oneOf_cons {rs : List (Reader α)} (h : r.Finds k L) (h' : (oneOf rs).Finds k M) :
    (oneOf (r :: rs)).Finds k (L + M) := h.either h'

/-- Steps that do not all take the same: `N` is what can follow any step, `L` what can follow a
value, and `M` what a step takes. -/
theorem finds_steps {step : α → Reader α} {L M : α → Language Lexeme}
    (h : ∀ a, (step a).Finds k (M a)) (hM : ∀ a, [] ∉ M a)
    (hN : ∀ a, (step a).Yields fun _ b => N ≤ L b) (hL : ∀ a, L a ≤ 1 + M a * N) :
    ∀ fuel a, (steps step fuel a).Finds (min k (fuel + 1)) (L a) := by
  intro fuel
  induction fuel with
  | zero =>
    intro a
    refine ⟨(finds_pure (k := 1) a).steady, fun c w d ho hw hk _ => ?_, fun c v d ho hv hk _ => ?_⟩
    · obtain rfl := List.length_eq_zero_iff.1 (show w.length = 0 by omega)
      exact (finds_pure (k := 1) a).found c [] d ho hw Nat.one_pos rfl
    · obtain rfl := List.length_eq_zero_iff.1 (show v.length = 0 by omega)
      exact hv.stop.le
  | succ fuel ih =>
    intro a
    have hstep : (do let b ← step a; steps step fuel b : Reader α).Finds (min k (fuel + 2))
        (M a * N) := by
      refine ((h a).mono (Nat.min_le_left _ _) le_rfl).bind_of_length (hN a)
        ((h a).steady.bind fun _ b _ => (ih b).steady)
        (fun _ _ b hb => (ih b).mono le_rfl hb) fun u v hu hk => ?_
      have hpos : 0 < u.length := List.length_pos_iff.2 fun h => hM a (h ▸ hu)
      rw [List.length_append] at hk
      omega
    exact (hstep.either (finds_pure a)).mono le_rfl ((hL a).trans_eq (add_comm _ _))

/-- A reader that goes as deep as there are tokens left goes deep enough. -/
theorem Finds.of_rest {deep : ℕ → Reader α} (h : ∀ fuel, (deep fuel).Finds (min k (fuel + 1)) L) :
    Finds (fun c => deep c.rest.length c) k L := by
  have hmin : ∀ {c w d}, Cursor.Passes c w d → w.length < k → w.length < min k (c.rest.length + 1) := by
    intro c w d hw hk
    have hrest := congrArg List.length hw.rest
    rw [List.length_append] at hrest
    omega
  exact ⟨fun c => (h c.rest.length).steady c,
    fun c w d ho hw hk => (h c.rest.length).found c w d ho hw (hmin hw hk),
    fun c v d ho hv hk => (h c.rest.length).gone c v d ho hv (hmin hv hk)⟩

/-- A chain of steps that take a token each, and do not all take the same. -/
theorem finds_chain_of {step : α → Reader α} {L M : α → Language Lexeme}
    (h : ∀ a, (step a).Finds k (M a)) (hM : ∀ a, [] ∉ M a)
    (hN : ∀ a, (step a).Yields fun _ b => N ≤ L b) (hL : ∀ a, L a ≤ 1 + M a * N) (a : α) :
    (chain step a).Finds k (L a) := by
  have hsteps := finds_steps h hM hN hL
  exact .of_rest fun fuel => hsteps fuel a

/-- A chain of steps that take a token each reads any number of them. -/
theorem finds_chain {step : α → Reader α} (h : ∀ a, (step a).Finds k L) (hL : [] ∉ L) (a : α) :
    (chain step a).Finds k L∗ :=
  finds_chain_of h (fun _ => hL) (fun a => (h a).steady.mono fun _ _ _ => le_refl L∗)
    (fun _ => (Language.one_add_self_mul_kstar_eq_kstar L).ge) a

theorem Finds.separated (h : r.Finds k L) :
    (separated r).Finds k (L * (tokenOf [.comma] * L)∗) := by
  have hstep : ∀ items : List α, (do
      skip .comma
      let next ← r
      return items ++ [next] : Reader (List α)).Finds k (tokenOf [.comma] * L) := by
    intro items
    have h' := (finds_skip .comma).bind fun _ => h.bind fun next => finds_pure (items ++ [next])
    rwa [mul_one] at h'
  refine h.bind fun a => finds_chain hstep ?_ [a]
  rintro ⟨u, hu, v, -, huv⟩
  obtain ⟨rfl, -⟩ := List.append_eq_nil_iff.1 huv
  exact nil_notMem_tokenOf _ hu

theorem finds_position : position.Finds k 1 := by
  -- from each place it reads what a reader of nothing does
  refine ⟨fun c => ?_, fun c w d ho hw hk hL => ⟨c.stop, ?_⟩, fun c v d ho hv hk hL => ?_⟩
  · exact (finds_pure (k := k) c.stop).steady c
  · obtain rfl := (Language.mem_one w).1 hL
    obtain rfl := ho.eq_of_stop hw (.refl c) hw.stop
    exact List.mem_singleton_self _
  · exact (finds_pure c.stop).gone c v d ho hv hk hL

theorem Finds.node {parts : Reader (Rule × List Tree)} (h : parts.Finds k L) :
    (Reader.node parts).Finds k L := by
  have hnode : ∀ start : Option Lexeme, (do
      let x ← parts
      let stop ← position
      return Tree.node x.1 (start.map fun l => ⟨l.start, stop⟩) x.2 : Reader Tree).Finds k L := by
    intro start
    have h' := h.bind fun x => finds_position.bind fun stop =>
      finds_pure (Tree.node x.1 (start.map fun l => ⟨l.start, stop⟩) x.2)
    rwa [mul_one, mul_one] at h'
  exact ⟨fun c => (hnode c.rest.head?).steady c, fun c => (hnode c.rest.head?).found c,
    fun c => (hnode c.rest.head?).gone c⟩

theorem Finds.extend {parts : Reader (List Tree)} (h : parts.Finds k L) (rule : Rule) (left : Tree) :
    (Reader.extend rule left parts).Finds k L := by
  have h' := h.bind fun ts => finds_position.bind fun stop =>
    finds_pure (Tree.node rule (left.span.map fun s => ⟨s.start, stop⟩) (left :: ts))
  rwa [mul_one, mul_one] at h'

end Reader

end Criterion

import Criterion.Proofs.Determined
import Criterion.Proofs.Excerpts

/-!
# Readings in a longer source

Readers look at no token before they take it. So where some tokens stand in a longer row of tokens, a reader
has there the readings that it has of them alone, moved, and before these only readings that end behind them.

* `Surroundings`, `Cursor.within`: the same place, where tokens stand among others.
* `Readings.Embeds`: the readings in the longer row, against those of the tokens alone.
* `Reader.Local`: a reader has the same readings in the longer row, as far as they end within.
* `Local.bind`, `local_chain`, `Local.node`: **what is put together of readers that are read alike is read
  alike.**
-/

namespace Criterion

open Readings

variable {α β : Type}

/-! ## Places in a longer row of tokens -/

/-- What stands around some tokens: so many characters before them, and tokens behind them. -/
structure Surroundings where
  before : ℕ
  after : List Lexeme

/-- The token behind `k` more characters. -/
def Lexeme.moved (k : ℕ) (l : Lexeme) : Lexeme := ⟨l.kind, l.text, l.start + k, l.stop + k⟩

namespace Cursor

variable {σ : Surroundings} {c d : Cursor} {w : List Lexeme}

/-- The same place in the longer row. -/
def within (σ : Surroundings) (c : Cursor) : Cursor :=
  ⟨c.stop + σ.before, c.rest.map (Lexeme.moved σ.before) ++ σ.after⟩

@[simp] theorem within_stop (σ : Surroundings) (c : Cursor) : (c.within σ).stop = c.stop + σ.before := rfl

@[simp] theorem within_rest (σ : Surroundings) (c : Cursor) :
    (c.within σ).rest = c.rest.map (Lexeme.moved σ.before) ++ σ.after := rfl

/-- The place where the tokens end. -/
def last (c : Cursor) : ℕ := stopAfter c.stop c.rest

theorem Passes.last (h : Passes c w d) : d.last = c.last := by
  unfold Cursor.last
  rw [h.rest, stopAfter_append, h.stop]

theorem Passes.within (h : Passes c w d) (σ : Surroundings) :
    Passes (c.within σ) (w.map (Lexeme.moved σ.before)) (d.within σ) := by
  constructor
  · simp [h.rest]
  · rw [within_stop, within_stop, h.stop]
    unfold stopAfter
    rw [List.getLast?_map]
    cases w.getLast? <;> rfl

/-- Tokens in order are in order by themselves. -/
theorem Ordered.of_within (h : (c.within σ).Ordered) : c.Ordered := by
  have hprefix : ((c.stop :: c.rest.map (·.stop)).map (· + σ.before)).Pairwise (· < ·) := by
    refine h.sublist (List.IsPrefix.sublist ⟨σ.after.map (·.stop), ?_⟩)
    simp [Lexeme.moved, Function.comp_def]
  exact (List.pairwise_map.1 hprefix).imp fun hlt => Nat.lt_of_add_lt_add_right hlt

/-- The tokens behind the ones that are looked at end later. -/
theorem Ordered.last_lt (h : (c.within σ).Ordered) {l : Lexeme} (hl : l ∈ σ.after) :
    c.last + σ.before < l.stop := by
  have hend : Passes c c.rest ⟨c.last, []⟩ := ⟨(List.append_nil _).symm, rfl⟩
  have hordered := h.passes (hend.within σ)
  exact (List.pairwise_cons.1 hordered).1 l.stop (List.mem_map_of_mem hl)

end Cursor

/-! ## Readings -/

namespace Readings

variable {σ : Surroundings} {last : ℕ} {m : α → α} {m' : β → β}

/-- The same reading in the longer row, with the value moved. -/
def placed (σ : Surroundings) (m : α → α) (x : α × Cursor) : α × Cursor := (m x.1, x.2.within σ)

/-- The readings in the longer row are those of the tokens alone, which end at `last` or before, and before
these only readings that end later. -/
def Embeds (σ : Surroundings) (last : ℕ) (m : α → α) (xs ys : List (α × Cursor)) : Prop :=
  (∀ x ∈ xs, x.2.stop ≤ last) ∧
    ∃ far, ys = far ++ xs.map (placed σ m) ∧ ∀ y ∈ far, last + σ.before < y.2.stop

section Embeds

variable {x : α × Cursor} {xs ys xs' ys' far near : List (α × Cursor)}

/-- A reading is put behind all that end later. -/
theorem insert_append (h : ∀ y ∈ far, x.2.stop < y.2.stop) :
    insert x (far ++ near) = far ++ insert x near := by
  induction far with
  | nil => rfl
  | cons y far ih =>
    obtain ⟨hy, hfar⟩ := List.forall_mem_cons.1 h
    rw [List.cons_append, insert, if_neg (by omega), if_neg (by omega), ih hfar, List.cons_append]

/-- A reading is put before all that end earlier. -/
theorem insert_far {limit : ℕ} (hx : limit < x.2.stop) (hfar : ∀ y ∈ far, limit < y.2.stop)
    (hnear : ∀ y ∈ near, y.2.stop ≤ limit) :
    ∃ far', insert x (far ++ near) = far' ++ near ∧ ∀ y ∈ far', limit < y.2.stop := by
  induction far with
  | nil =>
    refine ⟨[x], ?_, by simpa using hx⟩
    cases near with
    | nil => rfl
    | cons y near =>
      have hy := hnear y List.mem_cons_self
      exact if_pos (by omega)
  | cons y far ih =>
    obtain ⟨hy, hrest⟩ := List.forall_mem_cons.1 hfar
    obtain ⟨far', hfar', hlimit⟩ := ih hrest
    rw [List.cons_append, insert]
    split
    · exact ⟨x :: y :: far, rfl, List.forall_mem_cons.2 ⟨hx, hfar⟩⟩
    split
    · exact ⟨y :: far, rfl, hfar⟩
    · exact ⟨y :: far', by rw [hfar', List.cons_append], List.forall_mem_cons.2 ⟨hy, hlimit⟩⟩

theorem insert_placed (σ : Surroundings) (m : α → α) (x : α × Cursor) (xs : List (α × Cursor)) :
    insert (placed σ m x) (xs.map (placed σ m)) = (insert x xs).map (placed σ m) := by
  have hstop : ∀ y : α × Cursor, (placed σ m y).2.stop = y.2.stop + σ.before := fun _ => rfl
  induction xs with
  | nil => rfl
  | cons y ys ih =>
    rw [List.map_cons, insert, insert, hstop, hstop, ih]
    by_cases hlt : y.2.stop < x.2.stop
    · rw [if_pos hlt, if_pos (by omega)]
      rfl
    by_cases heq : x.2.stop = y.2.stop
    · rw [if_neg hlt, if_pos heq, if_neg (by omega), if_pos (by omega)]
      rfl
    · rw [if_neg hlt, if_neg heq, if_neg (by omega), if_neg (by omega)]
      rfl

theorem embeds_nil : Embeds σ last m [] [] := ⟨List.forall_mem_nil _, [], rfl, List.forall_mem_nil _⟩

/-- Readings that all end later. -/
theorem embeds_far (h : ∀ y ∈ ys, last + σ.before < y.2.stop) : Embeds σ last m [] ys :=
  ⟨List.forall_mem_nil _, ys, (List.append_nil ys).symm, h⟩

theorem embeds_single (hx : x.2.stop ≤ last) : Embeds σ last m [x] [placed σ m x] :=
  ⟨List.forall_mem_singleton.2 hx, [], rfl, List.forall_mem_nil _⟩

theorem Embeds.far_mem (h : Embeds σ last m [] ys) : ∀ y ∈ ys, last + σ.before < y.2.stop := by
  obtain ⟨-, far, rfl, hfar⟩ := h
  intro y hy
  exact hfar y (by simpa using hy)

theorem Embeds.insert_near (h : Embeds σ last m xs ys) (hx : x.2.stop ≤ last) :
    Embeds σ last m (insert x xs) (insert (placed σ m x) ys) := by
  obtain ⟨hxs, far, rfl, hfar⟩ := h
  constructor
  · intro y hy
    rcases of_mem_insert hy with rfl | hy
    · exact hx
    · exact hxs y hy
  · refine ⟨far, ?_, hfar⟩
    rw [insert_append, insert_placed]
    intro y hy
    have hstop : (placed σ m x).2.stop = x.2.stop + σ.before := rfl
    have hy := hfar y hy
    omega

theorem Embeds.insert_far (h : Embeds σ last m xs ys) (hx : last + σ.before < x.2.stop) :
    Embeds σ last m xs (insert x ys) := by
  obtain ⟨hxs, far, rfl, hfar⟩ := h
  have hnear : ∀ y ∈ xs.map (placed σ m), y.2.stop ≤ last + σ.before := by
    intro y hy
    obtain ⟨z, hz, rfl⟩ := List.mem_map.1 hy
    exact Nat.add_le_add_right (hxs z hz) _
  obtain ⟨far', hfar', hlimit⟩ := Readings.insert_far hx hfar hnear
  exact ⟨hxs, far', hfar', hlimit⟩

theorem Embeds.foldl_insert_far (h : Embeds σ last m xs ys)
    (hfar : ∀ y ∈ far, last + σ.before < y.2.stop) :
    Embeds σ last m xs (far.foldl (fun found r => insert r found) ys) := by
  induction far generalizing ys with
  | nil => exact h
  | cons y far ih =>
    obtain ⟨hy, hfar⟩ := List.forall_mem_cons.1 hfar
    exact ih (h.insert_far hy) hfar

/-- Readings of both kinds merged with readings of both kinds. -/
theorem Embeds.foldl_insert (h : Embeds σ last m xs ys) (h' : Embeds σ last m xs' ys') :
    Embeds σ last m (xs'.foldl (fun found r => insert r found) xs)
      (ys'.foldl (fun found r => insert r found) ys) := by
  obtain ⟨hxs', far, rfl, hfar⟩ := h'
  rw [List.foldl_append]
  have hleft := h.foldl_insert_far hfar
  revert hleft
  generalize far.foldl (fun found r => insert r found) ys = zs
  clear h hfar
  induction xs' generalizing xs zs with
  | nil => exact id
  | cons x xs' ih =>
    obtain ⟨hx, hxs'⟩ := List.forall_mem_cons.1 hxs'
    intro hleft
    exact ih hxs' _ (hleft.insert_near hx)

end Embeds

variable {r r' s s' : Readings α} {f f' : α → Reader β}

theorem Embeds.union (h : Embeds σ last m r.found r'.found) (h' : Embeds σ last m s.found s'.found) :
    Embeds σ last m (r.union s).found (r'.union s').found := h.foldl_insert h'

theorem Embeds.foldl_union {xs : List (α × Cursor)} {all all' : Readings β}
    (h : Embeds σ last m' all.found all'.found)
    (hf : ∀ x ∈ xs, Embeds σ last m' (f x.1 x.2).found (f' (m x.1) (x.2.within σ)).found) :
    Embeds σ last m' (xs.foldl (fun all (a, c) => all.union (f a c)) all).found
      ((xs.map (placed σ m)).foldl (fun all (a, c) => all.union (f' a c)) all').found := by
  induction xs generalizing all all' with
  | nil => exact h
  | cons x xs ih =>
    obtain ⟨hx, hf⟩ := List.forall_mem_cons.1 hf
    exact ih (h.union hx) hf

/-- Readings that are gone on from: what comes of those that end later ends later. -/
theorem Embeds.bind (h : Embeds σ last m r.found r'.found)
    (hf : ∀ x ∈ r.found, Embeds σ last m' (f x.1 x.2).found (f' (m x.1) (x.2.within σ)).found)
    (hlater : ∀ y ∈ r'.found, last + σ.before < y.2.stop →
      ∀ z ∈ (f' y.1 y.2).found, last + σ.before < z.2.stop) :
    Embeds σ last m' (r.bind f).found (r'.bind f').found := by
  obtain ⟨-, far, hfound, hfar⟩ := h
  unfold Readings.bind
  rw [hfound] at hlater ⊢
  rw [List.foldl_append]
  refine Embeds.foldl_union (embeds_far fun z hz => ?_) hf
  obtain hz | ⟨y, hy, hz⟩ := of_mem_foldl_union hz
  · exact absurd hz List.not_mem_nil
  · exact hlater y (List.mem_append_left _ hy) (hfar y hy) z hz

end Readings

/-! ## Readers -/

namespace Reader

variable {P : List Lexeme → α → Prop} {r s r' s' : Reader α} {f f' g g' : α → Reader β} {a b : α}

/-- Each reading spans some tokens. -/
def Steady (r : Reader α) : Prop := r.Yields fun _ _ => True

/-- Each reading spans a token at least. -/
def Taking (r : Reader α) : Prop := r.Yields fun w _ => w ≠ []

theorem Yields.steady (h : r.Yields P) : r.Steady := h.mono fun _ _ _ => trivial

section Steady

theorem Steady.pure : (Pure.pure a : Reader α).Steady := yields_pure trivial

theorem Steady.bind (h : r.Steady) (hf : ∀ a, (f a).Steady) : (r >>= f).Steady :=
  Yields.bind h fun _ a _ => hf a

theorem Steady.either (h : r.Steady) (h' : s.Steady) : (either r s).Steady := Yields.either h h'

theorem Steady.fork (h : r.Steady) (hf : ∀ a, (f a).Steady) (hg : ∀ a, (g a).Steady) :
    (fork r f g).Steady := Yields.fork h (fun _ a _ => hf a) fun _ a _ => hg a

theorem yields_one (kinds : List Terminal) : (token kinds).Yields fun w _ => ∃ l : Lexeme, w = [l] :=
  yields_token_of ⟨_, Classical.arbitrary Tree, ⟨.comma, ",", 0, 1⟩, rfl⟩ fun l _ => ⟨l, rfl⟩

theorem Steady.token {kinds : List Terminal} : (token kinds).Steady := (yields_one kinds).steady

theorem Steady.skip {kind : Terminal} : (skip kind).Steady := Steady.token.bind fun _ => Steady.pure

theorem Steady.chain {step : α → Reader α} (h : ∀ a, (step a).Steady) : (chain step a).Steady :=
  yields_chain (I := fun _ _ => True) (u := []) (fun _ a _ => h a) trivial

theorem Steady.position : Reader.position.Steady := (finds_position (k := 0)).steady

theorem Steady.extend {rule : Rule} {left : Tree} {parts : Reader (List Tree)} (h : parts.Steady) :
    (extend rule left parts).Steady := h.bind fun _ => Steady.position.bind fun _ => Steady.pure

theorem Steady.node {parts : Reader (Rule × List Tree)} (h : parts.Steady) : (node parts).Steady := by
  intro c
  have hnode : (do
      let x ← parts
      let stop ← Reader.position
      return Tree.node x.1 (c.rest.head?.map fun l => ⟨l.start, stop⟩) x.2 : Reader Tree).Steady :=
    h.bind fun _ => Steady.position.bind fun _ => Steady.pure
  exact hnode c

theorem Taking.steady (h : r.Taking) : r.Steady := Yields.steady h

theorem Taking.bind (h : r.Taking) (hf : ∀ a, (f a).Steady) : (r >>= f).Taking :=
  Yields.bind h fun _ a hu => (hf a).mono fun _ _ _ => List.append_ne_nil_of_left_ne_nil hu _

theorem Taking.either (h : r.Taking) (h' : s.Taking) : (either r s).Taking := Yields.either h h'

theorem Taking.fork (h : r.Taking) (hf : ∀ a, (f a).Steady) (hg : ∀ a, (g a).Steady) :
    (fork r f g).Taking :=
  Yields.fork h (fun _ a hu => (hf a).mono fun _ _ _ => List.append_ne_nil_of_left_ne_nil hu _)
    fun _ a hu => (hg a).mono fun _ _ _ => List.append_ne_nil_of_left_ne_nil hu _

theorem Taking.token {kinds : List Terminal} : (token kinds).Taking := by
  refine (yields_one kinds).mono ?_
  rintro w - ⟨l, rfl⟩
  exact List.cons_ne_nil l []

theorem Taking.skip {kind : Terminal} : (skip kind).Taking := Taking.token.bind fun _ => Steady.pure

theorem Taking.extend {rule : Rule} {left : Tree} {parts : Reader (List Tree)} (h : parts.Taking) :
    (extend rule left parts).Taking := h.bind fun _ => Steady.position.bind fun _ => Steady.pure

theorem Taking.rule {parts : Reader (List Tree)} {rule : Rule} (h : parts.Taking) :
    (Grammar.rule rule parts).Taking := by
  have hparts : (do return (rule, ← parts) : Reader (Rule × List Tree)).Taking :=
    h.bind fun _ => Steady.pure
  refine (Yields.node hparts fun _ _ hw => hw).mono ?_
  rintro w t ⟨_, _, hw, -⟩
  exact hw

/-- Where no token is left, nothing is taken. -/
theorem Taking.blocked (h : r.Taking) {c : Cursor} (hc : c.rest = []) : r.Blocked c := by
  refine List.eq_nil_iff_forall_not_mem.2 fun x hx => ?_
  obtain ⟨w, hw, hne⟩ := (h c).spans x hx
  have hrest := hw.rest
  rw [hc] at hrest
  exact hne (List.append_eq_nil_iff.1 hrest.symm).1

end Steady

/-- The second reader has in the longer row the readings that the first one has of the tokens alone, if there
are fewer than `n` of them, and only later readings besides. -/
structure Local (σ : Surroundings) (n : ℕ) (m : α → α) (r r' : Reader α) : Prop where
  steady : r.Steady
  steady' : r'.Steady
  embeds : ∀ c : Cursor, (c.within σ).Ordered → c.rest.length < n →
    Embeds σ c.last m (r c).found (r' (c.within σ)).found

section Local

variable {σ : Surroundings} {n : ℕ} {m : α → α} {m' : β → β}

theorem Local.mono {j : ℕ} (h : Local σ n m r r') (hj : j ≤ n) : Local σ j m r r' :=
  ⟨h.steady, h.steady', fun c ho hc => h.embeds c ho (hc.trans_le hj)⟩

theorem Local.weaken (h : Local σ (n + 1) m r r') : Local σ n m r r' := h.mono (Nat.le_succ n)

/-- Where no token is left, readers that take one have only later readings. -/
theorem Taking.embeds (h : r.Taking) (h' : r'.Taking) {c : Cursor} (ho : (c.within σ).Ordered)
    (hc : c.rest = []) : Embeds σ c.last m (r c).found (r' (c.within σ)).found := by
  rw [h.blocked hc]
  refine embeds_far fun z hz => ?_
  obtain ⟨w, hw, hne⟩ := (h' _).spans z hz
  obtain ⟨l, w, rfl⟩ := List.exists_cons_of_ne_nil hne
  have hlast : c.last = c.stop := by
    unfold Cursor.last
    rw [hc]
    rfl
  rw [hlast]
  exact hw.lt_stop ho

theorem local_pure (h : m a = b) : Local σ n m (pure a) (pure b) := by
  refine ⟨.pure, .pure, fun c ho _ => ?_⟩
  rw [← h]
  exact embeds_single ((Cursor.Passes.refl c).stop_le ho.of_within)

theorem local_none [Nonempty α] : Local σ n m none none := by
  have hsteady : (none : Reader α).Steady := finds_none (k := 0).steady
  exact ⟨hsteady, hsteady, fun _ _ _ => embeds_nil⟩

/-- One reader after the other, if what is read after each reading is alike. -/
theorem Local.bind_of (h : Local σ n m r r') (hsteady : ∀ a, (f a).Steady) (hsteady' : ∀ b, (f' b).Steady)
    (hf : ∀ c : Cursor, (c.within σ).Ordered → c.rest.length < n → ∀ x ∈ (r c).found,
      Embeds σ x.2.last m' (f x.1 x.2).found (f' (m x.1) (x.2.within σ)).found) :
    Local σ n m' (r >>= f) (r' >>= f') := by
  refine ⟨h.steady.bind hsteady, h.steady'.bind hsteady', fun c ho hc => ?_⟩
  refine (h.embeds c ho hc).bind (fun x hx => ?_) fun y hy hlater z hz => ?_
  · obtain ⟨w, hw, -⟩ := (h.steady c).spans x hx
    rw [← hw.last]
    exact hf c ho hc x hx
  · -- a reading of the longer row only goes on to the right
    obtain ⟨v, hv, -⟩ := (h.steady' _).spans y hy
    obtain ⟨u, hu, -⟩ := (hsteady' y.1 y.2).spans z hz
    exact hlater.trans_le (hu.le_stop (ho.passes hv))

theorem Local.bind (h : Local σ n m r r') (hf : ∀ a, Local σ n m' (f a) (f' (m a)))
    (hsteady' : ∀ b, (f' b).Steady) : Local σ n m' (r >>= f) (r' >>= f') := by
  refine h.bind_of (fun a => (hf a).steady) hsteady' fun c ho hc x hx => ?_
  obtain ⟨w, hw, -⟩ := (h.steady c).spans x hx
  have hlength := congrArg List.length hw.rest
  rw [List.length_append] at hlength
  exact (hf x.1).embeds x.2 (ho.passes (hw.within σ)) (by omega)

/-- Behind a token there are fewer of them. -/
theorem Local.bind_shorter (h : Local σ (n + 1) m r r') (htaking : r.Taking)
    (hf : ∀ a, Local σ n m' (f a) (f' (m a))) (hsteady' : ∀ b, (f' b).Steady) :
    Local σ (n + 1) m' (r >>= f) (r' >>= f') := by
  refine h.bind_of (fun a => (hf a).steady) hsteady' fun c ho hc x hx => ?_
  obtain ⟨w, hw, hne⟩ := (htaking c).spans x hx
  have hlength := congrArg List.length hw.rest
  have hpos := List.length_pos_iff.2 hne
  rw [List.length_append] at hlength
  exact (hf x.1).embeds x.2 (ho.passes (hw.within σ)) (by omega)

theorem local_token (kinds : List Terminal) :
    Local σ n (Tree.moved σ.before) (token kinds) (token kinds) := by
  refine ⟨.token, .token, fun c ho _ => ?_⟩
  obtain ⟨stop, rest⟩ := c
  cases rest with
  | nil =>
    -- the tokens behind end later
    refine embeds_far fun y hy => ?_
    obtain ⟨w, hw, l, rfl⟩ := (yields_one kinds _).spans y hy
    have hafter : σ.after = l :: y.2.rest := hw.rest
    have hmem : l ∈ σ.after := by
      rw [hafter]
      exact List.mem_cons_self
    rw [hw.stop]
    exact ho.last_lt hmem
  | cons l rest =>
    have hpasses : Cursor.Passes ⟨stop, l :: rest⟩ [l] ⟨l.stop, rest⟩ := .singleton rfl
    by_cases hl : kinds.contains l.kind = true
    · have hfound : (token kinds ⟨stop, l :: rest⟩).found = [(.token l.token, ⟨l.stop, rest⟩)] :=
        congrArg Readings.found (if_pos hl)
      have hfound' : (token kinds (Cursor.within σ ⟨stop, l :: rest⟩)).found =
          [placed σ (Tree.moved σ.before) (.token l.token, ⟨l.stop, rest⟩)] := by
        have hmoved : kinds.contains (l.moved σ.before).kind = true := hl
        exact congrArg Readings.found (if_pos hmoved)
      rw [hfound, hfound']
      exact embeds_single (hpasses.stop_le ho.of_within)
    · have hfound : (token kinds ⟨stop, l :: rest⟩).found = [] := congrArg Readings.found (if_neg hl)
      have hfound' : (token kinds (Cursor.within σ ⟨stop, l :: rest⟩)).found = [] := by
        have hmoved : ¬ kinds.contains (l.moved σ.before).kind = true := hl
        exact congrArg Readings.found (if_neg hmoved)
      rw [hfound, hfound']
      exact embeds_nil

theorem local_skip (kind : Terminal) : Local σ n id (skip kind) (skip kind) :=
  (local_token [kind]).bind (fun _ => local_pure rfl) fun _ => .pure

theorem local_token_bind {kinds : List Terminal} {f f' : Tree → Reader β}
    (hf : ∀ t, Local σ n m' (f t) (f' (t.moved σ.before))) (hsteady' : ∀ t, (f' t).Steady) :
    Local σ (n + 1) m' (token kinds >>= f) (token kinds >>= f') :=
  (local_token kinds).bind_shorter .token hf hsteady'

theorem local_skip_bind {kind : Terminal} {f f' : Unit → Reader β} (hf : Local σ n m' (f ()) (f' ())) :
    Local σ (n + 1) m' (skip kind >>= f) (skip kind >>= f') :=
  (local_skip kind).bind_shorter .skip (fun _ => hf) fun _ => hf.steady'

theorem Local.either (h : Local σ n m r r') (h' : Local σ n m s s') :
    Local σ n m (either r s) (either r' s') :=
  ⟨h.steady.either h'.steady, h.steady'.either h'.steady',
    fun c ho hc => (h.embeds c ho hc).union (h'.embeds c ho hc)⟩

theorem Local.fork (h : Local σ n m r r') (hf : ∀ a, Local σ n m' (f a) (f' (m a)))
    (hg : ∀ a, Local σ n m' (g a) (g' (m a))) (hf' : ∀ b, (f' b).Steady) (hg' : ∀ b, (g' b).Steady) :
    Local σ n m' (fork r f g) (fork r' f' g') := by
  have hleft := h.bind hf hf'
  have hright := h.bind hg hg'
  refine ⟨h.steady.fork (fun a => (hf a).steady) fun a => (hg a).steady, h.steady'.fork hf' hg', ?_⟩
  exact fun c ho hc => (hleft.embeds c ho hc).union (hright.embeds c ho hc)

theorem local_oneOf_cons {rs rs' : List (Reader α)} (h : Local σ n m r r')
    (h' : Local σ n m (oneOf rs) (oneOf rs')) : Local σ n m (oneOf (r :: rs)) (oneOf (r' :: rs')) :=
  h.either h'

theorem local_oneOf_nil [Nonempty α] : Local σ n m (oneOf []) (oneOf []) := local_none

/-- Steps that take a token each, if there is fuel for all tokens. -/
theorem embeds_steps {step step' : α → Reader α} (h : ∀ a, Local σ n m (step a) (step' (m a)))
    (htaking : ∀ a, (step a).Taking) (hsteady' : ∀ b, (step' b).Steady) :
    ∀ (fuel fuel' : ℕ) (a : α) (c : Cursor), (c.within σ).Ordered → c.rest.length < n →
      c.rest.length ≤ fuel → fuel ≤ fuel' →
        Embeds σ c.last m (steps step fuel a c).found (steps step' fuel' (m a) (c.within σ)).found := by
  have hstay : ∀ (a : α) (c : Cursor), (c.within σ).Ordered →
      Embeds σ c.last m ((pure a : Reader α) c).found ((pure (m a) : Reader α) (c.within σ)).found :=
    fun a c ho => (local_pure (n := c.rest.length + 1) rfl).embeds c ho (Nat.lt_succ_self _)
  have hsteps : ∀ fuel b, (steps step' fuel b).Steady := by
    intro fuel
    induction fuel with
    | zero => exact fun b => .pure
    | succ fuel ih => exact fun b => ((hsteady' b).bind fun b => ih b).either .pure
  intro fuel
  induction fuel with
  | zero =>
    intro fuel' a c ho hc hfuel _
    cases fuel' with
    | zero => exact hstay a c ho
    | succ fuel' =>
      have hrest : c.rest = [] := List.length_eq_zero_iff.1 (Nat.le_zero.1 hfuel)
      -- no token is left for a step, so a step of the longer row ends later
      have hstep := (h a).embeds c ho hc
      rw [(htaking a).blocked hrest] at hstep
      have hlater : ∀ z ∈ ((step' (m a) >>= steps step' fuel') (c.within σ)).found,
          c.last + σ.before < z.2.stop := by
        intro z hz
        obtain ⟨y, hy, hz⟩ := of_mem_bind hz
        obtain ⟨v, hv, -⟩ := (hsteady' _ _).spans y hy
        obtain ⟨u, hu, -⟩ := (hsteps fuel' y.1 y.2).spans z hz
        exact (hstep.far_mem y hy).trans_le (hu.le_stop (ho.passes hv))
      have hfar : Embeds σ c.last m [] ((step' (m a) >>= steps step' fuel') (c.within σ)).found :=
        embeds_far hlater
      exact hfar.foldl_insert (hstay a c ho)
  | succ fuel ih =>
    intro fuel' a c ho hc hfuel hle
    obtain ⟨fuel', rfl⟩ := Nat.exists_eq_add_of_le' (Nat.le_trans (Nat.succ_le_succ (Nat.zero_le fuel)) hle)
    refine Embeds.union (Embeds.bind ((h a).embeds c ho hc) (fun x hx => ?_) fun y hy hlater z hz => ?_)
      (hstay a c ho)
    · obtain ⟨w, hw, hne⟩ := (htaking a c).spans x hx
      have hlength := congrArg List.length hw.rest
      have hpos := List.length_pos_iff.2 hne
      rw [List.length_append] at hlength
      rw [← hw.last]
      exact ih fuel' x.1 x.2 (ho.passes (hw.within σ)) (by omega) (by omega) (by omega)
    · obtain ⟨v, hv, -⟩ := (hsteady' _ _).spans y hy
      obtain ⟨u, hu, -⟩ := (hsteps fuel' y.1 y.2).spans z hz
      exact hlater.trans_le (hu.le_stop (ho.passes hv))

theorem local_chain {step step' : α → Reader α} (h : ∀ a, Local σ n m (step a) (step' (m a)))
    (htaking : ∀ a, (step a).Taking) (hsteady' : ∀ b, (step' b).Steady) (hab : m a = b) :
    Local σ n m (chain step a) (chain step' b) := by
  refine ⟨.chain fun a => (h a).steady, .chain hsteady', fun c ho hc => ?_⟩
  rw [← hab]
  refine embeds_steps h htaking hsteady' c.rest.length _ a c ho hc le_rfl ?_
  rw [Cursor.within_rest, List.length_append, List.length_map]
  exact Nat.le_add_right _ _

/-- An item behind a token, put to the items before. -/
theorem local_items (kind : Terminal) (h : Local σ n m r r') (items : List α) :
    Local σ n (List.map m)
      (do
        skip kind
        let next ← r
        return items ++ [next])
      (do
        skip kind
        let next ← r'
        return items.map m ++ [next]) := by
  refine Local.weaken (local_skip_bind (h.bind (fun a => local_pure ?_) fun _ => .pure))
  rw [List.map_append]
  rfl

theorem Local.separated (h : Local σ n m r r') :
    Local σ n (List.map m) (separated r) (separated r') := by
  refine h.bind (fun a => local_chain (fun items => local_items .comma h items) (fun _ => ?_) (fun _ => ?_) rfl)
    fun b => .chain fun _ => ?_
  · exact Taking.skip.bind fun _ => h.steady.bind fun _ => .pure
  · exact Steady.skip.bind fun _ => h.steady'.bind fun _ => .pure
  · exact Steady.skip.bind fun _ => h.steady'.bind fun _ => .pure

theorem local_position : Local σ n (· + σ.before) position position := by
  refine ⟨.position, .position, fun c ho _ => ?_⟩
  exact embeds_single (x := (c.stop, c)) ((Cursor.Passes.refl c).stop_le ho.of_within)

/-- A rule and its parts, moved. -/
def movedParts (k : ℕ) (x : Rule × List Tree) : Rule × List Tree := (x.1, x.2.map (Tree.moved k))

theorem moved_node {rule : Rule} {span : Option Span} {children : List Tree} {k : ℕ} :
    (Tree.node rule span children).moved k =
      .node rule (span.map (Span.moved k)) (children.map (Tree.moved k)) := by
  rw [Tree.moved, movedTrees_eq]

theorem moved_span (t : Tree) (k : ℕ) : (t.moved k).span = t.span.map (Span.moved k) := by
  cases t <;> rfl

theorem Local.node {parts parts' : Reader (Rule × List Tree)}
    (h : Local σ n (movedParts σ.before) parts parts') (htaking : parts.Taking) :
    Local σ n (Tree.moved σ.before) (node parts) (node parts') := by
  refine ⟨h.steady.node, h.steady'.node, fun c ho hc => ?_⟩
  cases hrest : c.rest with
  | nil =>
    -- nothing is read without a token
    have hblocked := (htaking.blocked hrest).node
    have hparts := h.embeds c ho hc
    rw [htaking.blocked hrest] at hparts
    rw [hblocked]
    refine embeds_far fun z hz => ?_
    obtain ⟨y, hy, hz⟩ := of_mem_bind hz
    obtain ⟨x, hx, hz⟩ := of_mem_bind hz
    cases List.mem_singleton.1 hx
    cases List.mem_singleton.1 hz
    exact hparts.far_mem y hy
  | cons l rest =>
    have hstart : (c.within σ).rest.head? = some (l.moved σ.before) := by
      rw [Cursor.within_rest, hrest]
      rfl
    have hmade : Local σ n (Tree.moved σ.before)
        (do
          let x ← parts
          let stop ← position
          return Tree.node x.1 (some ⟨l.start, stop⟩) x.2 : Reader Tree)
        (do
          let x ← parts'
          let stop ← position
          return Tree.node x.1 (some ⟨(l.moved σ.before).start, stop⟩) x.2 : Reader Tree) := by
      refine h.bind (fun x => local_position.bind (fun stop => local_pure ?_) fun _ => .pure)
        fun _ => Steady.position.bind fun _ => .pure
      exact moved_node
    have hembeds := hmade.embeds c ho hc
    unfold Reader.node
    rw [hstart, hrest]
    exact hembeds

theorem Local.extend {rule : Rule} {left : Tree} {parts parts' : Reader (List Tree)}
    (h : Local σ n (List.map (Tree.moved σ.before)) parts parts') :
    Local σ n (Tree.moved σ.before) (extend rule left parts)
      (extend rule (left.moved σ.before) parts') := by
  refine h.bind (fun ts => local_position.bind (fun stop => local_pure ?_) fun _ => .pure)
    fun _ => Steady.position.bind fun _ => .pure
  rw [moved_node, moved_span, Option.map_map, Option.map_map]
  rfl

theorem Local.rule {rule : Rule} {parts parts' : Reader (List Tree)}
    (h : Local σ n (List.map (Tree.moved σ.before)) parts parts') (htaking : parts.Taking) :
    Local σ n (Tree.moved σ.before) (Grammar.rule rule parts) (Grammar.rule rule parts') :=
  Local.node (h.bind (fun _ => local_pure rfl) fun _ => .pure) (htaking.bind fun _ => .pure)

end Local

end Reader

end Criterion

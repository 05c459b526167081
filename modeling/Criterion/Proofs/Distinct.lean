import Criterion.Proofs.Applications
import Criterion.Proofs.Equality

/-!
# Distinct values

The distinct values of a list are collected from left to right: an element is kept if it equals none that was kept
before it. Since equality is an equivalence, it then equals no element before it at all, and the kept elements are
those that stand at the first position of their value.

* `distinct_append_singleton`: what one element more does.
* `isAmong_distinct`: every element equals a kept one.
* `distinct_eq_firsts`: the kept elements are those at the first positions of their values.
* `distinct_of_apart`, `distinct_append`: what has been collected is collected again as it is.
* `distinct_keeps_firsts`: **what `distinct values` keeps of a list of data.**
-/

namespace Criterion

open Library

variable {v w : Value} {vs xs ys : List Value}

/-! ## Collecting -/

/-- An element at the end is kept if it equals none that is kept already. -/
theorem distinct_append_singleton (xs : List Value) (v : Value) :
    distinct (xs ++ [v]) = if v.isAmong (distinct xs) then distinct xs else distinct xs ++ [v] := by
  rw [distinct, List.foldl_append]
  rfl

/-- Only elements of the list are kept. -/
theorem mem_of_mem_distinct (h : v ∈ distinct xs) : v ∈ xs := by
  induction xs using List.reverseRecOn with
  | nil => exact h
  | append_singleton xs x ih =>
    rw [distinct_append_singleton] at h
    rw [List.mem_append]
    split at h
    · exact .inl (ih h)
    · exact (List.mem_append.1 h).imp_left ih

/-- No kept element equals a kept one behind it. -/
theorem distinct_apart (xs : List Value) : (distinct xs).Pairwise fun v w => v.eqv w = false := by
  induction xs using List.reverseRecOn with
  | nil => exact .nil
  | append_singleton xs x ih =>
    rw [distinct_append_singleton]
    split
    · exact ih
    · rename_i hnew
      rw [List.pairwise_append]
      refine ⟨ih, List.pairwise_singleton _ _, fun v hv w hw => ?_⟩
      obtain rfl := List.mem_singleton.1 hw
      exact Bool.eq_false_iff.2 fun heq => hnew (List.any_eq_true.2 ⟨v, hv, heq⟩)

/-- Elements of which none equals one behind it are all kept. -/
theorem distinct_of_apart (h : xs.Pairwise fun v w => v.eqv w = false) : distinct xs = xs := by
  induction xs using List.reverseRecOn with
  | nil => rfl
  | append_singleton xs x ih =>
    obtain ⟨hxs, -, hx⟩ := List.pairwise_append.1 h
    have hnew : x.isAmong xs = false := List.any_eq_false.2 fun v hv =>
      Bool.eq_false_iff.1 (hx v hv x (List.mem_singleton_self x))
    rw [distinct_append_singleton, ih hxs, hnew]
    rfl

/-- **What has been collected can be collected again.** -/
theorem distinct_append (xs ys : List Value) : distinct (distinct xs ++ ys) = distinct (xs ++ ys) := by
  have hagain : distinct (distinct xs) = distinct xs := distinct_of_apart (distinct_apart xs)
  have hsplit : ∀ us : List Value, distinct (us ++ ys) =
      ys.foldl (fun kept v => if v.isAmong kept then kept else kept ++ [v]) (distinct us) :=
    fun us => List.foldl_append
  rw [hsplit, hsplit, hagain]

/-! ## First positions -/

/-- Every element equals a kept one, and what equals no element equals no kept one. -/
theorem isAmong_distinct (hxs : ∀ x ∈ xs, x.NaNFree) (hv : v.NaNFree) :
    v.isAmong (distinct xs) = v.isAmong xs := by
  have hfound : ∀ x ∈ xs, ∃ w ∈ distinct xs, w.eqv x = true := by
    induction xs using List.reverseRecOn with
    | nil => exact nofun
    | append_singleton xs x ih =>
      have hx : x.NaNFree := hxs x (by simp)
      have hold := ih fun u hu => hxs u (List.mem_append_left _ hu)
      intro u hu
      rw [distinct_append_singleton]
      split
      · rename_i hamong
        obtain hu | hu := List.mem_append.1 hu
        · exact hold u hu
        · obtain rfl := List.mem_singleton.1 hu
          exact List.any_eq_true.1 hamong
      · obtain hu | hu := List.mem_append.1 hu
        · obtain ⟨w, hw, heq⟩ := hold u hu
          exact ⟨w, List.mem_append_left _ hw, heq⟩
        · obtain rfl := List.mem_singleton.1 hu
          exact ⟨u, List.mem_append_right _ (List.mem_singleton_self u), hx.eqv_refl⟩
  rw [Bool.eq_iff_iff, Value.isAmong, Value.isAmong, List.any_eq_true, List.any_eq_true]
  constructor
  · rintro ⟨w, hw, heq⟩
    exact ⟨w, mem_of_mem_distinct hw, heq⟩
  · rintro ⟨x, hx, heq⟩
    obtain ⟨w, hw, hwx⟩ := hfound x hx
    have hwdata : w.NaNFree := hxs w (mem_of_mem_distinct hw)
    exact ⟨w, hw, hwdata.eqv_trans (hxs x hx) hv hwx heq⟩

theorem positions_append (v : Value) (next : ℕ) (xs ys : List Value) :
    positions v next (xs ++ ys) = positions v next xs ++ positions v (next + xs.length) ys := by
  induction xs generalizing next with
  | nil => rfl
  | cons x xs ih =>
    rw [List.cons_append, positions, positions, ih, List.length_cons, Nat.add_right_comm, ← Nat.add_assoc]
    split <;> rfl

/-- Whether a value stands at the first of its positions in a list. -/
def standsFirst (xs : List Value) (p : Value × ℕ) : Bool := (positions p.1 1 xs).head? == some p.2

/-- What stands behind a value does not change whether it stands first. -/
theorem standsFirst_append (hv : v.isAmong xs = true) (i : ℕ) :
    standsFirst (xs ++ ys) (v, i) = standsFirst xs (v, i) := by
  have hsome : positions v 1 xs ≠ [] := (isAmong_iff_positions v xs).1 hv
  rw [standsFirst, standsFirst, positions_append, List.head?_append_of_ne_nil _ hsome]

/-- The last element stands first if no other equals it. -/
theorem standsFirst_last (hv : v.eqv v = true) :
    standsFirst (xs ++ [v]) (v, xs.length + 1) = !v.isAmong xs := by
  have hlast : positions v (1 + xs.length) [v] = [1 + xs.length] := if_pos hv
  rw [standsFirst, positions_append, hlast]
  cases hamong : v.isAmong xs with
  | false =>
    have hnone : positions v 1 xs = [] := by
      by_contra hsome
      rw [(isAmong_iff_positions v xs).2 hsome] at hamong
      cases hamong
    rw [hnone, Nat.add_comm]
    exact beq_self_eq_true _
  | true =>
    -- the first position is one of an earlier element
    obtain ⟨i, rest, hpositions⟩ := List.exists_cons_of_ne_nil ((isAmong_iff_positions v xs).1 hamong)
    have hi : i ∈ positions v 1 xs := hpositions ▸ List.mem_cons_self
    obtain ⟨-, w, hw, -⟩ := (mem_positions v xs i).1 hi
    obtain ⟨hlt, -⟩ := List.getElem?_eq_some_iff.1 hw
    rw [hpositions]
    refine beq_eq_false_iff_ne.2 fun heq => ?_
    have hsame : i = xs.length + 1 := Option.some.inj heq
    omega

/-- **The kept elements are those that stand first.** -/
theorem distinct_eq_firsts (hxs : ∀ x ∈ xs, x.NaNFree) :
    distinct xs = ((xs.zipIdx 1).filter (standsFirst xs)).map (·.1) := by
  induction xs using List.reverseRecOn with
  | nil => rfl
  | append_singleton xs x ih =>
    have hold : ∀ u ∈ xs, u.NaNFree := fun u hu => hxs u (List.mem_append_left _ hu)
    have hx : x.NaNFree := hxs x (by simp)
    have hfilter : (xs.zipIdx 1).filter (standsFirst (xs ++ [x])) = (xs.zipIdx 1).filter (standsFirst xs) := by
      refine List.filter_congr fun p hp => ?_
      have hmem : p.1 ∈ xs := List.fst_mem_of_mem_zipIdx hp
      exact standsFirst_append (List.any_eq_true.2 ⟨p.1, hmem, (hold p.1 hmem).eqv_refl⟩) p.2
    have hend : [x].zipIdx (1 + xs.length) = [(x, xs.length + 1)] := by
      rw [Nat.add_comm]
      rfl
    rw [distinct_append_singleton, List.zipIdx_append, List.filter_append, List.map_append, hfilter, ← ih hold, hend,
      List.filter_singleton, standsFirst_last hx.eqv_refl, isAmong_distinct hold hx]
    cases x.isAmong xs <;> simp

/-! ## The function -/

/-- **`distinct values` keeps the first of equal values.** Of a list of data it keeps exactly the elements whose
position is the first one that `index of` finds for them, in their order. No two kept elements are equal, and every
element equals a kept one. Applied to its own result it changes nothing, and when a list is put in front of another
one, its distinct values do as well. -/
theorem distinct_keeps_firsts (bindings : Fields) (xs ys : List Value)
    (hxs : bindings.get? "xs" = some (.list xs)) (hys : bindings.get? "ys" = some (.list ys))
    (hdata : ∀ v ∈ xs, v.NaNFree) :
    (evaluate .standard "distinct values(xs)" bindings).outcome = .ok (.list (distinct xs)) ∧
    (∀ v, (evaluate .standard "index of(xs, e)" (bindings.put "e" v)).outcome =
      .ok (.list ((positions v 1 xs).map fun i : ℕ => .whole i))) ∧
    distinct xs = ((xs.zipIdx 1).filter fun (v, i) => (positions v 1 xs).head? == some i).map (·.1) ∧
    ((distinct xs).Pairwise fun v w =>
      Value.compare? .equal v w = some false ∧ Value.compare? .equal w v = some false) ∧
    (∀ v ∈ xs, ∃ w ∈ distinct xs, Value.compare? .equal v w = some true) ∧
    (evaluate .standard "distinct values(distinct values(xs))" bindings).outcome = .ok (.list (distinct xs)) ∧
    ((evaluate .standard "distinct values(concatenate(xs, ys))" bindings).outcome =
        .ok (.list (distinct (xs ++ ys))) ∧
      (evaluate .standard "distinct values(concatenate(distinct values(xs), ys))" bindings).outcome =
        .ok (.list (distinct (xs ++ ys)))) := by
  have hkept : ∀ v ∈ distinct xs, v.NaNFree := fun v hv => hdata v (mem_of_mem_distinct hv)
  have hnameXs : (Expr.name "xs").Gives bindings (.list xs) := Expr.gives_name (.inl (by decide)) hxs
  have hnameYs : (Expr.name "ys").Gives bindings (.list ys) := Expr.gives_name (.inl (by decide)) hys
  have hdistinct : ∀ {e : Expr} {zs : List Value} (source : String), e.Gives bindings (.list zs) →
      (Expr.call source (.name "distinct values") [e]).Gives bindings (.list (distinct zs)) :=
    fun source he => he.apply₁ (b := .distinctValues) rfl rfl
  have hinner := hdistinct "distinct values(xs)" hnameXs
  refine ⟨hinner.evaluate (by decide +kernel), fun v => ?_, distinct_eq_firsts hdata, ?_, fun v hv => ?_, ?_, ?_, ?_⟩
  · have hxs' : (bindings.put "e" v).get? "xs" = some (.list xs) := by
      rw [Fields.get_put, if_neg (by decide), hxs]
    have he : (bindings.put "e" v).get? "e" = some v := by rw [Fields.get_put, if_pos rfl]
    have harguments : List.Forall₂ (Expr.Gives (bindings.put "e" v)) [.name "xs", .name "e"] [.list xs, v] :=
      .cons (Expr.gives_name (.inl (by decide)) hxs') (.cons (Expr.gives_name (.inl (by decide)) he) .nil)
    have hcall : (Expr.call "index of(xs, e)" (.name "index of") [.name "xs", .name "e"]).Gives (bindings.put "e" v)
        (.list ((positions v 1 xs).map fun i : ℕ => .whole i)) :=
      .apply (Expr.gives_builtin _ .indexOf) harguments rfl rfl
    exact hcall.evaluate (by decide +kernel)
  · refine (distinct_apart xs).imp_of_mem fun {v w} hv hw h => ?_
    rw [Value.compare?, Value.compare?, ← (hkept v hv).eqv_symm (hkept w hw), h]
    exact ⟨rfl, rfl⟩
  · have hamong : v.isAmong (distinct xs) = true := by
      rw [isAmong_distinct hdata (hdata v hv)]
      exact List.any_eq_true.2 ⟨v, hv, (hdata v hv).eqv_refl⟩
    obtain ⟨w, hw, heq⟩ := List.any_eq_true.1 hamong
    rw [← (hdata v hv).eqv_symm (hkept w hw)] at heq
    exact ⟨w, hw, congrArg some heq⟩
  · have htwice := hdistinct "distinct values(distinct values(xs))" hinner
    rw [distinct_of_apart (distinct_apart xs)] at htwice
    exact htwice.evaluate (by decide +kernel)
  · exact (hdistinct "distinct values(concatenate(xs, ys))"
      (Expr.gives_concatenate "concatenate(xs, ys)" hnameXs hnameYs)).evaluate (by decide +kernel)
  · rw [← distinct_append]
    exact (hdistinct "distinct values(concatenate(distinct values(xs), ys))"
      (Expr.gives_concatenate "concatenate(distinct values(xs), ys)" hinner hnameYs)).evaluate (by decide +kernel)

/-- In `[true, 1, [1, null], [true, null]]` there are two distinct values, the first of which stays where one is put
behind it. -/
theorem distinct_keeps_firsts_mixed :
    (evaluate .standard "distinct values(xs)"
        [("xs", .list [.boolean true, .whole 1, .list [.whole 1, .null], .list [.boolean true, .null]]),
          ("ys", .list [.whole 1])]).outcome =
      .ok (.list [.boolean true, .list [.whole 1, .null]]) ∧
    (evaluate .standard "distinct values(concatenate(distinct values(xs), ys))"
        [("xs", .list [.boolean true, .whole 1, .list [.whole 1, .null], .list [.boolean true, .null]]),
          ("ys", .list [.whole 1])]).outcome =
      .ok (.list [.boolean true, .list [.whole 1, .null]]) := by
  have htrue : (Value.boolean true).NaNFree := .marked (.number (.boolean true) (.whole 1))
  have hone : (Value.whole 1).NaNFree := .marked (.number (.number (.whole 1)) (.whole 1))
  have hpair : ∀ v : Value, v.NaNFree → (Value.list [v, .null]).NaNFree := fun v hv =>
    .list fun u hu => by
      obtain rfl | hu := List.mem_cons.1 hu
      · exact hv
      · exact List.mem_singleton.1 hu ▸ .null
  have hdata : ∀ v ∈ ([.boolean true, .whole 1, .list [.whole 1, .null], .list [.boolean true, .null]] : List Value),
      v.NaNFree := by
    simp only [List.forall_mem_cons]
    exact ⟨htrue, hone, hpair _ hone, hpair _ htrue, nofun⟩
  obtain ⟨hdistinct, -, -, -, -, -, -, hjoined⟩ := distinct_keeps_firsts
    [("xs", .list [.boolean true, .whole 1, .list [.whole 1, .null], .list [.boolean true, .null]]),
      ("ys", .list [.whole 1])]
    [.boolean true, .whole 1, .list [.whole 1, .null], .list [.boolean true, .null]] [.whole 1] rfl rfl hdata
  exact ⟨hdistinct, hjoined⟩

end Criterion

import Criterion.Proofs.Applications
import Mathlib.Logic.Relation

/-!
# Flattening

A list may have lists among its elements, and these again. Flattening it leaves what stands in it at any depth and
is no list itself, in the order of the places. How the values are grouped into lists does not matter, and nothing
else is lost: two lists flatten alike exactly if one becomes the other when values that stand side by side are put
into lists of their own and lists are resolved.

* `Value.at?`: what stands at a place in a value.
* `LeavesInOrder`, `leavesInOrder_flatten`: flattening finds all leaves, from left to right.
* `Grouped`, `flatten_eq_iff`: what flattening forgets.
* `flatten_leaves`: **what `flatten` does with a list, with its result, and with lists put together.**
-/

namespace Criterion

/-! ## Places -/

/-- What stands at a place in a value: the element with the first number, counted from zero, then the element of
that with the second number, and so on. -/
def Value.at? : Value → List ℕ → Option Value
  | v, [] => some v
  | .list items, i :: place => items[i]?.bind (·.at? place)
  | _, _ :: _ => none

/-- The values that stand in `v` and are no lists, in the ascending order of their places. -/
structure LeavesInOrder (v : Value) (places : List (List ℕ)) (leaves : List Value) : Prop where
  ascending : places.Pairwise (· < ·)
  mem_iff : ∀ place, place ∈ places ↔ ∃ w, v.at? place = some w ∧ w.isList = false
  values : places.map v.at? = leaves.map some

variable {v w : Value} {vs ws xs ys before after : List Value} {places tails : List (List ℕ)}

/-- What is no list is the only leaf in it. -/
theorem leavesInOrder_self (h : v.isList = false) : LeavesInOrder v [[]] [v] := by
  refine ⟨List.pairwise_singleton _ _, fun place => ?_, rfl⟩
  rw [List.mem_singleton]
  constructor
  · rintro rfl
    exact ⟨v, rfl, h⟩
  · rintro ⟨w, hw, -⟩
    cases place with
    | nil => rfl
    | cons i place =>
      -- only in a list are there further places
      cases v with
      | list items => cases h
      | _ => cases hw

theorem leavesInOrder_nil : LeavesInOrder (.list []) [] [] := by
  refine ⟨.nil, fun place => iff_of_false nofun ?_, rfl⟩
  rintro ⟨w, hw, hleaf⟩
  cases place with
  | nil =>
    cases hw
    cases hleaf
  | cons i place => cases hw

/-- A list is no leaf, so that the places of its leaves have a number in front. -/
theorem LeavesInOrder.ne_nil (h : LeavesInOrder (.list vs) places ws) : ∀ place ∈ places, place ≠ [] := by
  rintro place hplace rfl
  obtain ⟨w, hw, hleaf⟩ := (h.mem_iff []).1 hplace
  cases hw
  cases hleaf

/-- The same place in a list with one more element in front. -/
def shifted : List ℕ → List ℕ
  | [] => []
  | i :: place => (i + 1) :: place

/-- The leaves of a list are those of its first element, followed by those of the others. -/
theorem LeavesInOrder.cons (hv : LeavesInOrder v places vs) (hrest : LeavesInOrder (.list xs) tails ws) :
    LeavesInOrder (.list (v :: xs)) (places.map (0 :: ·) ++ tails.map shifted) (vs ++ ws) := by
  have hhead : ∀ place, (Value.list (v :: xs)).at? (0 :: place) = v.at? place := fun place => rfl
  have hshift : ∀ place ∈ tails, (Value.list (v :: xs)).at? (shifted place) = (Value.list xs).at? place := by
    intro place hplace
    cases place with
    | nil => exact absurd rfl (hrest.ne_nil _ hplace)
    | cons i place => rfl
  refine ⟨?ascending, fun place => ?mem_iff, ?values⟩
  case ascending =>
    rw [List.pairwise_append, List.pairwise_map, List.pairwise_map]
    refine ⟨hv.ascending.imp fun h => List.cons_lt_cons_iff.2 (.inr ⟨rfl, h⟩), ?_, ?_⟩
    · refine hrest.ascending.imp_of_mem fun {p q} hp hq h => ?_
      cases p with
      | nil => exact absurd rfl (hrest.ne_nil _ hp)
      | cons i p =>
        cases q with
        | nil => exact absurd rfl (hrest.ne_nil _ hq)
        | cons j q =>
          rw [List.cons_lt_cons_iff] at h
          exact List.cons_lt_cons_iff.2 (h.imp Nat.succ_lt_succ fun ⟨hij, hpq⟩ => ⟨congrArg Nat.succ hij, hpq⟩)
    · intro p hp q hq
      obtain ⟨p, -, rfl⟩ := List.mem_map.1 hp
      obtain ⟨place, hplace, rfl⟩ := List.mem_map.1 hq
      cases place with
      | nil => exact absurd rfl (hrest.ne_nil _ hplace)
      | cons j place => exact List.cons_lt_cons_iff.2 (.inl (Nat.succ_pos j))
  case mem_iff =>
    rw [List.mem_append, List.mem_map, List.mem_map]
    cases place with
    | nil =>
      refine iff_of_false ?_ ?_
      · rintro (⟨p, -, hp⟩ | ⟨p, hp, hshifted⟩)
        · cases hp
        · cases p with
          | nil => exact hrest.ne_nil _ hp rfl
          | cons i p => cases hshifted
      · rintro ⟨w, hw, hleaf⟩
        cases hw
        cases hleaf
    | cons i place =>
      cases i with
      | zero =>
        rw [hhead, ← hv.mem_iff]
        constructor
        · rintro (⟨p, hp, hsame⟩ | ⟨p, -, hsame⟩)
          · cases hsame
            exact hp
          · cases p <;> cases hsame
        · exact fun h => .inl ⟨place, h, rfl⟩
      | succ i =>
        have hback : (Value.list (v :: xs)).at? ((i + 1) :: place) = (Value.list xs).at? (i :: place) := rfl
        rw [hback, ← hrest.mem_iff]
        constructor
        · rintro (⟨p, -, hsame⟩ | ⟨p, hp, hsame⟩)
          · cases hsame
          · cases p with
            | nil => cases hsame
            | cons j p =>
              cases hsame
              exact hp
        · exact fun h => .inr ⟨i :: place, h, rfl⟩
  case values =>
    rw [List.map_append, List.map_append, ← hv.values, ← hrest.values, List.map_map, List.map_map]
    exact congrArg₂ _ rfl (List.map_congr_left hshift)

mutual

/-- The leaves of a value stand in it at certain places. -/
theorem exists_leavesInOrder : ∀ v : Value, ∃ places, LeavesInOrder v places (Library.leaves v)
  | .list vs => by
    rw [Library.leaves]
    exact leavesInOrder_flatten vs
  | .null | .boolean _ | .number _ | .text _ | .date _ | .time _ | .moment _ | .duration _ | .zone _
  | .context _ | .function .recorder | .function (.builtin _) | .function (.echo _ _) | .probe _
  | .procedure => ⟨[[]], leavesInOrder_self rfl⟩
  | .method receiver _ => ⟨[[]], leavesInOrder_self (by cases receiver <;> rfl)⟩

/-- **Flattening a list leaves all leaves in their order.** -/
theorem leavesInOrder_flatten : ∀ vs : List Value, ∃ places, LeavesInOrder (.list vs) places (Library.flatten vs)
  | [] => ⟨[], leavesInOrder_nil⟩
  | v :: rest => by
    obtain ⟨places, hv⟩ := exists_leavesInOrder v
    obtain ⟨tails, hrest⟩ := leavesInOrder_flatten rest
    rw [Library.flatten]
    exact ⟨_, hv.cons hrest⟩

end

/-! ## Grouping -/

/-- One list more: some values that stand side by side, perhaps none, are put into a list of their own, at any depth. -/
inductive Grouped : List Value → List Value → Prop where
  | here (before group after : List Value) :
    Grouped (before ++ group ++ after) (before ++ .list group :: after)
  | inside {inner inner' : List Value} (before after : List Value) :
    Grouped inner inner' → Grouped (before ++ .list inner :: after) (before ++ .list inner' :: after)

theorem flatten_append (xs ys : List Value) :
    Library.flatten (xs ++ ys) = Library.flatten xs ++ Library.flatten ys := by
  induction xs with
  | nil => rfl
  | cons x xs ih => rw [List.cons_append, Library.flatten, Library.flatten, ih, List.append_assoc]

/-- A list among the elements may as well be left out around its own elements. -/
theorem flatten_list (before group after : List Value) :
    Library.flatten (before ++ .list group :: after) = Library.flatten (before ++ group ++ after) := by
  rw [flatten_append, flatten_append, flatten_append, Library.flatten, Library.leaves, List.append_assoc]

/-- One list more does not matter. -/
theorem flatten_grouped (h : Grouped xs ys) : Library.flatten ys = Library.flatten xs := by
  induction h with
  | here before group after => exact flatten_list before group after
  | inside before after _ ih =>
    rw [flatten_list, flatten_list, flatten_append, flatten_append, flatten_append, flatten_append, ih]

/-- What becomes of a list can become of it inside of another one. -/
theorem grouped_inside (before after : List Value) (h : Relation.ReflTransGen Grouped xs ys) :
    Relation.ReflTransGen Grouped (before ++ .list xs :: after) (before ++ .list ys :: after) :=
  Relation.ReflTransGen.lift (fun zs => before ++ .list zs :: after)
    (fun _ _ hstep => Grouped.inside before after hstep) xs ys h

/-- What becomes of a list can become of it as the end of another one. -/
theorem grouped_behind (before : List Value) (h : Relation.ReflTransGen Grouped xs ys) :
    Relation.ReflTransGen Grouped (before ++ xs) (before ++ ys) := by
  refine Relation.ReflTransGen.lift (before ++ ·) (fun us vs hstep => ?_) xs ys h
  change Grouped (before ++ us) (before ++ vs)
  cases hstep with
  | here front group after =>
    simpa only [List.append_assoc] using Grouped.here (before ++ front) group after
  | inside front after hinner =>
    simpa only [List.append_assoc] using Grouped.inside (before ++ front) after hinner

mutual

/-- The leaves of an element are grouped into the element, in front of the other elements. -/
theorem leaves_grouped : ∀ (v : Value) (after : List Value),
    Relation.ReflTransGen Grouped (Library.leaves v ++ after) (v :: after)
  | .list vs, after => by
    rw [Library.leaves]
    have hgroup : Grouped (Library.flatten vs ++ after) (.list (Library.flatten vs) :: after) :=
      .here [] (Library.flatten vs) after
    exact .head hgroup (grouped_inside [] after (flatten_becomes vs))
  | .null, _ | .boolean _, _ | .number _, _ | .text _, _ | .date _, _ | .time _, _ | .moment _, _ | .duration _, _
  | .zone _, _ | .context _, _ | .function .recorder, _ | .function (.builtin _), _ | .function (.echo _ _), _ | .method _ _, _
  | .probe _, _ | .procedure, _ => .refl

/-- **Every list is its leaves, grouped.** -/
theorem flatten_becomes : ∀ vs : List Value, Relation.ReflTransGen Grouped (Library.flatten vs) vs
  | [] => .refl
  | v :: rest => by
    rw [Library.flatten]
    exact (grouped_behind _ (flatten_becomes rest)).trans (leaves_grouped v rest)

end

/-- **Flattening forgets the grouping and nothing else.** -/
theorem flatten_eq_iff : Library.flatten xs = Library.flatten ys ↔ Relation.EqvGen Grouped xs ys := by
  constructor
  · intro h
    have hxs := Relation.EqvGen.reflTransGen_le_eqvGen Grouped _ _ (flatten_becomes xs)
    have hys := Relation.EqvGen.reflTransGen_le_eqvGen Grouped _ _ (flatten_becomes ys)
    rw [← h] at hys
    exact .trans _ _ _ (.symm _ _ hxs) hys
  · intro h
    induction h with
    | rel xs ys hstep => exact (flatten_grouped hstep).symm
    | refl xs => rfl
    | symm xs ys _ ih => exact ih.symm
    | trans xs ys zs _ _ ih ih' => exact ih.trans ih'

/-! ## The function -/

/-- No element of a flattened list is a list. -/
theorem isList_flatten (h : v ∈ Library.flatten xs) : v.isList = false := by
  obtain ⟨places, hleaves⟩ := leavesInOrder_flatten xs
  have hvalue : some v ∈ places.map (Value.list xs).at? := by
    rw [hleaves.values]
    exact List.mem_map_of_mem h
  obtain ⟨place, hplace, hv⟩ := List.mem_map.1 hvalue
  obtain ⟨w, hw, hleaf⟩ := (hleaves.mem_iff place).1 hplace
  rw [hw] at hv
  cases hv
  exact hleaf

/-- A list without lists in it is flat. -/
theorem flatten_eq_self (h : ∀ x ∈ xs, x.isList = false) : Library.flatten xs = xs := by
  induction xs with
  | nil => rfl
  | cons x xs ih =>
    obtain ⟨hx, hxs⟩ := List.forall_mem_cons.1 h
    have hleaves : Library.leaves x = [x] := by
      cases x with
      | list items => cases hx
      | _ => rfl
    rw [Library.flatten, hleaves, ih hxs]
    rfl

/-- **`flatten` leaves what is no list, in its order, and forgets the grouping only.** None of its elements is a
list; they are the leaves of the list in the order of their places. Flattening again changes nothing, and lists
can be flattened before they are put together or afterwards. Two lists flatten alike exactly if one becomes the
other when values side by side are put into lists, and lists are resolved, anywhere and at any depth. -/
theorem flatten_leaves (bindings : Fields) (xs ys : List Value) (hxs : bindings.get? "xs" = some (.list xs))
    (hys : bindings.get? "ys" = some (.list ys)) :
    (evaluate .standard "flatten(xs)" bindings).outcome = .ok (.list (Library.flatten xs)) ∧
    (∀ v ∈ Library.flatten xs, v.isList = false) ∧
    (∃ places, LeavesInOrder (.list xs) places (Library.flatten xs)) ∧
    (evaluate .standard "flatten(flatten(xs))" bindings).outcome = .ok (.list (Library.flatten xs)) ∧
    ((evaluate .standard "flatten(concatenate(xs, ys))" bindings).outcome =
        .ok (.list (Library.flatten xs ++ Library.flatten ys)) ∧
      (evaluate .standard "concatenate(flatten(xs), flatten(ys))" bindings).outcome =
        .ok (.list (Library.flatten xs ++ Library.flatten ys))) ∧
    ((evaluate .standard "flatten(xs)" bindings).outcome = (evaluate .standard "flatten(ys)" bindings).outcome ↔
      Relation.EqvGen Grouped xs ys) := by
  have hnameXs : (Expr.name "xs").Gives bindings (.list xs) := Expr.gives_name (.inl (by decide)) hxs
  have hnameYs : (Expr.name "ys").Gives bindings (.list ys) := Expr.gives_name (.inl (by decide)) hys
  have hflat : ∀ {e : Expr} {zs : List Value} (source : String), e.Gives bindings (.list zs) →
      (Expr.call source (.name "flatten") [e]).Gives bindings (.list (Library.flatten zs)) :=
    fun source he => he.apply₁ (b := .flatten) rfl rfl
  have hagain : Library.flatten (Library.flatten xs) = Library.flatten xs :=
    flatten_eq_self fun x hx => isList_flatten hx
  have hevaluate : (evaluate .standard "flatten(xs)" bindings).outcome = .ok (.list (Library.flatten xs)) :=
    (hflat "flatten(xs)" hnameXs).evaluate (by decide +kernel)
  have hevaluate' : (evaluate .standard "flatten(ys)" bindings).outcome = .ok (.list (Library.flatten ys)) :=
    (hflat "flatten(ys)" hnameYs).evaluate (by decide +kernel)
  refine ⟨hevaluate, fun v hv => isList_flatten hv, leavesInOrder_flatten xs, ?_, ⟨?_, ?_⟩, ?_⟩
  · have htwice := hflat "flatten(flatten(xs))" (hflat "flatten(xs)" hnameXs)
    rw [hagain] at htwice
    exact htwice.evaluate (by decide +kernel)
  · rw [← flatten_append]
    exact (hflat "flatten(concatenate(xs, ys))"
      (Expr.gives_concatenate "concatenate(xs, ys)" hnameXs hnameYs)).evaluate (by decide +kernel)
  · exact (Expr.gives_concatenate "concatenate(flatten(xs), flatten(ys))" (hflat "flatten(xs)" hnameXs)
      (hflat "flatten(ys)" hnameYs)).evaluate (by decide +kernel)
  · rw [hevaluate, hevaluate', Except.ok.injEq, Value.list.injEq]
    exact flatten_eq_iff

/-- `[1, [2, []]]` and `[[[1, 2]]]` put together and flattened. -/
theorem flatten_leaves_nested :
    (evaluate .standard "flatten(xs)" [("xs", .list [.whole 1, .list [.whole 2, .list []]]),
      ("ys", .list [.list [.list [.whole 1, .whole 2]]])]).outcome = .ok (.list [.whole 1, .whole 2]) ∧
    (evaluate .standard "flatten(concatenate(xs, ys))" [("xs", .list [.whole 1, .list [.whole 2, .list []]]),
      ("ys", .list [.list [.list [.whole 1, .whole 2]]])]).outcome =
        .ok (.list [.whole 1, .whole 2, .whole 1, .whole 2]) := by
  obtain ⟨hflat, -, -, -, ⟨hjoined, -⟩, -⟩ := flatten_leaves
    [("xs", .list [.whole 1, .list [.whole 2, .list []]]), ("ys", .list [.list [.list [.whole 1, .whole 2]]])]
    [.whole 1, .list [.whole 2, .list []]] [.list [.list [.whole 1, .whole 2]]] rfl rfl
  exact ⟨hflat, hjoined⟩

end Criterion

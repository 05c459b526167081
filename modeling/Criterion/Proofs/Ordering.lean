import Criterion.Eval
import Criterion.Proofs.Equality
import Criterion.Proofs.Points
import Criterion.Proofs.Runs
import Criterion.Proofs.Shadowing

/-!
# The comparisons as one strict order

Two values of one kind have an order or have none. Lists are compared by the first elements that differ, so a
list of booleans and integers may have an order with another one even though no boolean has one with an
integer outside of lists.

* `Value.FloatFree`: null, values with a point on a scale, and lists and contexts of such values.
* `Value.Apart`: neither equal nor comparable. Values of unlike shapes are.
* `FloatFree.induction₂`: how a property of two values is shown, by their shapes.
* `eqv_symm`, `eqv_trans`: equality of such values.
* `standing_swap`, `standing_agrees`, `standing_congr`, `standing_trans`: how they stand in the order.
* `comparisons_strict_order`: **the four comparisons of such values are those of one strict order, and all
  four are null if there is none.**
-/

namespace Criterion

/-! ## Where two values stand -/

namespace Value

/-- How `b` and `a` stand if `a` and `b` stand so. -/
def Standing.swap : Standing → Standing
  | .ordered o => .ordered o.swap
  | .unordered => .unordered
  | .incomparable => .incomparable

/-- There is no order, or one in which exactly equal values stand equal. -/
inductive Standing.Agrees : Standing → Bool → Prop where
  | none (e : Bool) : Agrees .incomparable e
  | some {o : Ordering} {e : Bool} (h : o = .eq ↔ e = true) : Agrees (.ordered o) e

variable {a b c : Value} {p q : Point} {xs ys zs : List Value} {es fs gs : Fields}

/-- Neither equal nor comparable, in either direction. -/
structure Apart (a b : Value) : Prop where
  eqv : a.eqv b = false
  eqv_rev : b.eqv a = false
  standing : a.standing b = .incomparable
  standing_rev : b.standing a = .incomparable

theorem Apart.symm (h : a.Apart b) : b.Apart a := ⟨h.eqv_rev, h.eqv, h.standing_rev, h.standing⟩

/-- Data without fractions: null, what has a point on a scale, and lists and contexts of such data. -/
inductive FloatFree : Value → Prop where
  | null : FloatFree .null
  | point {v : Value} {p : Point} (h : v.At p) : FloatFree v
  | list {items : List Value} (h : ∀ v ∈ items, FloatFree v) : FloatFree (.list items)
  | context {fields : Fields} (hkeys : (fields.map (·.1)).Nodup) (h : ∀ f ∈ fields, FloatFree f.2) :
    FloatFree (.context fields)

theorem At.apart_null (h : a.At p) : a.Apart .null := by
  cases h <;> exact ⟨rfl, rfl, rfl, rfl⟩

theorem At.apart_list (h : a.At p) (xs : List Value) : a.Apart (.list xs) := by
  cases h <;> exact ⟨rfl, rfl, rfl, rfl⟩

theorem At.apart_context (h : a.At p) (es : Fields) : a.Apart (.context es) := by
  cases h <;> exact ⟨rfl, rfl, rfl, rfl⟩

/-- What has no point is apart from all values that have one. -/
theorem FloatFree.point_or_apart (hb : b.FloatFree) :
    (∃ q, b.At q) ∨ ∀ a p, Value.At a p → a.Apart b := by
  cases hb with
  | null => exact .inr fun a p ha => ha.apart_null
  | point hb => exact .inl ⟨_, hb⟩
  | list => exact .inr fun a p ha => ha.apart_list _
  | context => exact .inr fun a p ha => ha.apart_context _

/-- What is no list is apart from all lists. -/
theorem FloatFree.list_or_apart (hb : b.FloatFree) :
    (∃ ys, b = .list ys) ∨ ∀ xs, (Value.list xs).Apart b := by
  cases hb with
  | null => exact .inr fun xs => ⟨rfl, rfl, rfl, rfl⟩
  | point hb => exact .inr fun xs => (hb.apart_list xs).symm
  | list => exact .inl ⟨_, rfl⟩
  | context => exact .inr fun xs => ⟨rfl, rfl, rfl, rfl⟩

/-- What is no context is apart from all contexts. -/
theorem FloatFree.context_or_apart (hb : b.FloatFree) :
    (∃ fs, b = .context fs) ∨ ∀ es, (Value.context es).Apart b := by
  cases hb with
  | null => exact .inr fun es => ⟨rfl, rfl, rfl, rfl⟩
  | point hb => exact .inr fun es => (hb.apart_context es).symm
  | list => exact .inr fun es => ⟨rfl, rfl, rfl, rfl⟩
  | context => exact .inl ⟨_, rfl⟩

theorem FloatFree.items (h : (Value.list xs).FloatFree) : ∀ x ∈ xs, x.FloatFree := by
  cases h with
  | point h => cases h
  | list h => exact h

theorem FloatFree.keys (h : (Value.context es).FloatFree) : (es.map (·.1)).Nodup := by
  cases h with
  | point h => cases h
  | context hkeys h => exact hkeys

theorem FloatFree.fields (h : (Value.context es).FloatFree) : ∀ e ∈ es, e.2.FloatFree := by
  cases h with
  | point h => cases h
  | context hkeys h => exact h

/-- A property of two values without fractions holds if it holds of values of unlike shapes, and is handed
on from the parts of two lists or two contexts to these. -/
theorem FloatFree.induction₂ {P : Value → Value → Prop}
    (apart : ∀ {a b : Value}, a.Apart b → P a b)
    (null : P .null .null)
    (point : ∀ {a b : Value} {p q : Point}, a.At p → b.At q → P a b)
    (list : ∀ {xs ys : List Value}, (∀ x ∈ xs, x.FloatFree) → (∀ y ∈ ys, y.FloatFree) →
      (∀ x ∈ xs, ∀ y ∈ ys, P x y) → P (.list xs) (.list ys))
    (context : ∀ {es fs : Fields}, (Value.context es).FloatFree → (Value.context fs).FloatFree →
      (∀ e ∈ es, ∀ f ∈ fs, P e.2 f.2) → P (.context es) (.context fs))
    (ha : a.FloatFree) (hb : b.FloatFree) : P a b := by
  induction ha generalizing b with
  | null =>
    cases hb with
    | null => exact null
    | point hb => exact apart hb.apart_null.symm
    | list => exact apart ⟨rfl, rfl, rfl, rfl⟩
    | context => exact apart ⟨rfl, rfl, rfl, rfl⟩
  | point ha =>
    obtain ⟨q, hb⟩ | h := hb.point_or_apart
    · exact point ha hb
    · exact apart (h _ _ ha)
  | list hxs ih =>
    obtain ⟨ys, rfl⟩ | h := hb.list_or_apart
    · exact list hxs hb.items fun x hx y hy => ih x hx (hb.items y hy)
    · exact apart (h _)
  | context hkeys hes ih =>
    obtain ⟨fs, rfl⟩ | h := hb.context_or_apart
    · exact context (.context hkeys hes) hb fun e he f hf => ih e he (hb.fields f hf)
    · exact apart (h _)

/-! ## Equality -/

theorem At.nanFree (h : a.At p) : a.NaNFree := by
  cases h with
  | boolean b => exact .marked (.number (.boolean b) (.whole _))
  | whole i => exact .marked (.number (.number _) (.whole i))
  | text s => exact .marked (.point (.text s) nofun)
  | date d => exact .marked (.point (.date d) nofun)
  | time t => exact .marked (.point (.time t) nofun)
  | moment m => exact .marked (.point (.moment m) nofun)
  | duration d => exact .marked (.point (.duration d) nofun)

theorem FloatFree.nanFree (ha : a.FloatFree) : a.NaNFree := by
  induction ha with
  | null => exact .null
  | point h => exact h.nanFree
  | list _ ih => exact .list ih
  | context hkeys _ ih => exact .context hkeys ih

theorem eqv_symm (ha : a.FloatFree) (hb : b.FloatFree) : a.eqv b = b.eqv a :=
  NaNFree.eqv_symm ha.nanFree hb.nanFree

theorem eqv_trans (ha : a.FloatFree) (hb : b.FloatFree) (hc : c.FloatFree) (hab : a.eqv b = true)
    (hbc : b.eqv c = true) : a.eqv c = true :=
  NaNFree.eqv_trans ha.nanFree hb.nanFree hc.nanFree hab hbc

/-! ## Order -/

theorem standingItems_swap (hsymm : ∀ x ∈ xs, ∀ y ∈ ys, x.eqv y = y.eqv x)
    (h : ∀ x ∈ xs, ∀ y ∈ ys, y.standing x = (x.standing y).swap) :
    standingItems ys xs = (standingItems xs ys).swap := by
  induction xs generalizing ys with
  | nil => cases ys <;> rfl
  | cons x xs ih =>
    cases ys with
    | nil => rfl
    | cons y ys =>
      have htail : standingItems ys xs = (standingItems xs ys).swap :=
        ih (fun v hv w hw => hsymm v (.tail x hv) w (.tail y hw))
          fun v hv w hw => h v (.tail x hv) w (.tail y hw)
      rw [standingItems, standingItems, ← hsymm x (.head xs) y (.head ys), htail,
        h x (.head xs) y (.head ys), apply_ite Standing.swap]

theorem standing_swap (ha : a.FloatFree) (hb : b.FloatFree) : b.standing a = (a.standing b).swap := by
  refine FloatFree.induction₂
    (P := fun a b => a.FloatFree → b.FloatFree → b.standing a = (a.standing b).swap)
    ?apart ?null ?point ?list ?context ha hb ha hb
  case apart => exact fun h _ _ => by rw [h.standing, h.standing_rev, Standing.swap]
  case null => exact fun _ _ => rfl
  case point =>
    intro a b p q ha hb _ _
    rw [standing_of_points ha hb, standing_of_points hb ha, Point.compare_swap q p]
    cases p.compare? q <;> rfl
  case list =>
    intro xs ys hxs hys ih _ _
    rw [standing, standing]
    exact standingItems_swap (fun x hx y hy => eqv_symm (hxs x hx) (hys y hy))
      fun x hx y hy => ih x hx y hy (hxs x hx) (hys y hy)
  case context => exact fun _ _ _ _ _ => rfl

theorem standingItems_agrees (h : ∀ x ∈ xs, ∀ y ∈ ys, (x.standing y).Agrees (x.eqv y)) :
    (standingItems xs ys).Agrees (eqvItems xs ys) := by
  induction xs generalizing ys with
  | nil => cases ys <;> exact .some (by simp [eqvItems])
  | cons x xs ih =>
    cases ys with
    | nil => exact .some (by simp [eqvItems])
    | cons y ys =>
      rw [standingItems, eqvItems]
      cases hxy : x.eqv y with
      | true =>
        rw [if_pos rfl, Bool.true_and]
        exact ih fun v hv w hw => h v (.tail x hv) w (.tail y hw)
      | false =>
        rw [if_neg Bool.false_ne_true, Bool.false_and, ← hxy]
        exact h x (.head xs) y (.head ys)

/-- In the order exactly equal values stand equal, and no two values are in it and yet unordered. -/
theorem standing_agrees (ha : a.FloatFree) (hb : b.FloatFree) :
    (a.standing b).Agrees (a.eqv b) := by
  refine FloatFree.induction₂ (P := fun a b => (a.standing b).Agrees (a.eqv b))
    ?apart ?null ?point ?list ?context ha hb
  case apart => exact fun h => h.standing ▸ .none _
  case null => exact .none _
  case point =>
    intro a b p q ha hb
    rw [standing_of_points ha hb]
    cases hpq : p.compare? q with
    | none => exact .none _
    | some o =>
      refine .some ?_
      rw [eqv_of_points ha hb, ← Point.compare_eq_iff, hpq, Option.some.injEq]
  case list =>
    intro xs ys _ _ ih
    rw [standing, eqv]
    exact standingItems_agrees ih
  case context => exact fun _ _ _ => .none _

/-- What stands in the order and not equal is not equal. -/
theorem not_eqv_of_standing (ha : a.FloatFree) (hb : b.FloatFree) (h : a.standing b = .ordered .lt) :
    a.eqv b = false := by
  have hagrees := standing_agrees ha hb
  rw [h] at hagrees
  cases hagrees with
  | some hiff => exact Bool.eq_false_iff.2 fun heqv => nomatch hiff.2 heqv

theorem standingItems_congr
    (hrefl : ∀ x ∈ xs, ∀ y ∈ ys, ∀ z ∈ zs, x.eqv y = true → x.eqv z = y.eqv z)
    (h : ∀ x ∈ xs, ∀ y ∈ ys, ∀ z ∈ zs, x.eqv y = true → x.standing z = y.standing z)
    (hxy : eqvItems xs ys = true) : standingItems xs zs = standingItems ys zs := by
  induction xs generalizing ys zs with
  | nil =>
    cases ys with
    | nil => rfl
    | cons => exact Bool.noConfusion hxy
  | cons x xs ih =>
    cases ys with
    | nil => exact Bool.noConfusion hxy
    | cons y ys =>
      cases zs with
      | nil => rfl
      | cons z zs =>
        rw [eqvItems, Bool.and_eq_true] at hxy
        have htail : standingItems xs zs = standingItems ys zs :=
          ih (fun u hu v hv w hw => hrefl u (.tail x hu) v (.tail y hv) w (.tail z hw))
            (fun u hu v hv w hw => h u (.tail x hu) v (.tail y hv) w (.tail z hw)) hxy.2
        rw [standingItems, standingItems, hrefl x (.head xs) y (.head ys) z (.head zs) hxy.1,
          h x (.head xs) y (.head ys) z (.head zs) hxy.1, htail]

/-- Equal values are equal to the same values. -/
theorem eqv_congr (ha : a.FloatFree) (hb : b.FloatFree) (hc : c.FloatFree) (hab : a.eqv b = true) :
    a.eqv c = b.eqv c := by
  have hba : b.eqv a = true := (eqv_symm hb ha).trans hab
  exact Bool.eq_iff_iff.2 ⟨eqv_trans hb ha hc hba, eqv_trans ha hb hc hab⟩

/-- Equal values stand alike to all others. -/
theorem standing_congr (ha : a.FloatFree) (hb : b.FloatFree) (hc : c.FloatFree)
    (hab : a.eqv b = true) : a.standing c = b.standing c := by
  refine FloatFree.induction₂
    (P := fun a b => ∀ c, c.FloatFree → a.eqv b = true → a.standing c = b.standing c)
    ?apart ?null ?point ?list ?context ha hb c hc hab
  case apart => exact fun h c _ hab => absurd (h.eqv.symm.trans hab) Bool.false_ne_true
  case null => exact fun c _ _ => rfl
  case point =>
    intro a b p q ha hb c hc hab
    obtain rfl := (eqv_of_points ha hb).1 hab
    obtain ⟨r, hr⟩ | h := hc.point_or_apart
    · rw [standing_of_points ha hr, standing_of_points hb hr]
    · rw [(h a p ha).standing, (h b p hb).standing]
  case list =>
    intro xs ys hxs hys ih c hc hab
    obtain ⟨zs, rfl⟩ | h := hc.list_or_apart
    · rw [standing, standing]
      exact standingItems_congr
        (fun x hx y hy z hz => eqv_congr (hxs x hx) (hys y hy) (hc.items z hz))
        (fun x hx y hy z hz => ih x hx y hy z (hc.items z hz)) hab
    · rw [(h xs).standing, (h ys).standing]
  case context => exact fun _ _ _ c _ _ => rfl

/-- Other values stand in one way to equal ones. -/
theorem standing_congr_right (ha : a.FloatFree) (hb : b.FloatFree) (hc : c.FloatFree)
    (hbc : b.eqv c = true) : a.standing b = a.standing c := by
  rw [standing_swap hb ha, standing_swap hc ha, standing_congr hb hc ha hbc]

theorem standingItems_trans (hxs : ∀ x ∈ xs, x.FloatFree) (hys : ∀ y ∈ ys, y.FloatFree)
    (hzs : ∀ z ∈ zs, z.FloatFree)
    (h : ∀ x ∈ xs, ∀ y ∈ ys, ∀ z ∈ zs, x.standing y = .ordered .lt → y.standing z = .ordered .lt →
      x.standing z = .ordered .lt)
    (hxy : standingItems xs ys = .ordered .lt) (hyz : standingItems ys zs = .ordered .lt) :
    standingItems xs zs = .ordered .lt := by
  induction xs generalizing ys zs with
  | nil =>
    -- a list of which nothing is a proper beginning is empty
    cases zs with
    | nil => cases ys <;> exact absurd hyz (by simp [standingItems])
    | cons => rfl
  | cons x xs ih =>
    cases ys with
    | nil => exact absurd hxy (by simp [standingItems])
    | cons y ys =>
      cases zs with
      | nil => exact absurd hyz (by simp [standingItems])
      | cons z zs =>
        have hx := hxs x (.head xs)
        have hy := hys y (.head ys)
        have hz := hzs z (.head zs)
        rw [standingItems] at hxy hyz ⊢
        cases hxy' : x.eqv y with
        | true =>
          rw [if_pos hxy'] at hxy
          rw [eqv_congr hx hy hz hxy', standing_congr hx hy hz hxy']
          cases hyz' : y.eqv z with
          | true =>
            rw [if_pos hyz'] at hyz
            rw [if_pos rfl]
            exact ih (fun v hv => hxs v (.tail x hv)) (fun v hv => hys v (.tail y hv))
              (fun v hv => hzs v (.tail z hv))
              (fun u hu v hv w hw => h u (.tail x hu) v (.tail y hv) w (.tail z hw)) hxy hyz
          | false =>
            rw [if_neg (Bool.eq_false_iff.1 hyz')] at hyz
            rw [if_neg Bool.false_ne_true]
            exact hyz
        | false =>
          rw [if_neg (Bool.eq_false_iff.1 hxy')] at hxy
          have hxz : x.standing z = .ordered .lt := by
            cases hyz' : y.eqv z with
            | true =>
              have hzx : z.standing x = y.standing x := (standing_congr hy hz hx hyz').symm
              rw [standing_swap hz hx, hzx, ← standing_swap hy hx, hxy]
            | false =>
              rw [if_neg (Bool.eq_false_iff.1 hyz')] at hyz
              exact h x (.head xs) y (.head ys) z (.head zs) hxy hyz
          rw [if_neg (Bool.eq_false_iff.1 (not_eqv_of_standing hx hz hxz)), hxz]

theorem standing_trans (ha : a.FloatFree) (hb : b.FloatFree) (hc : c.FloatFree)
    (hab : a.standing b = .ordered .lt) (hbc : b.standing c = .ordered .lt) :
    a.standing c = .ordered .lt := by
  have hno : Standing.incomparable ≠ .ordered .lt := Standing.noConfusion
  refine FloatFree.induction₂
    (P := fun a b => ∀ c, c.FloatFree → a.standing b = .ordered .lt → b.standing c = .ordered .lt →
      a.standing c = .ordered .lt)
    ?apart ?null ?point ?list ?context ha hb c hc hab hbc
  case apart => exact fun h c _ hab => absurd (h.standing.symm.trans hab) hno
  case null => exact fun c _ hab => absurd hab hno
  case point =>
    intro a b p q ha hb c hc hab hbc
    obtain ⟨r, hr⟩ | h := hc.point_or_apart
    · have hlt : ∀ {o : Option Ordering}, Standing.ofOption o = .ordered .lt ↔ o = some .lt := by
        intro o
        cases o <;> simp [Standing.ofOption]
      rw [standing_of_points ha hb, hlt] at hab
      rw [standing_of_points hb hr, hlt] at hbc
      rw [standing_of_points ha hr, hlt]
      exact Point.compare_lt_trans hab hbc
    · exact absurd ((h b q hb).standing.symm.trans hbc) hno
  case list =>
    intro xs ys hxs hys ih c hc hab hbc
    obtain ⟨zs, rfl⟩ | h := hc.list_or_apart
    · rw [standing] at hab hbc ⊢
      exact standingItems_trans hxs hys hc.items
        (fun x hx y hy z hz => ih x hx y hy z (hc.items z hz)) hab hbc
    · exact absurd ((h ys).standing.symm.trans hbc) hno
  case context => exact fun _ _ _ c _ hab => absurd hab hno

/-! ## The comparisons -/

/-- The comparisons that tell an order. -/
def orderings : List Relation := [.less, .atMost, .greater, .atLeast]

/-- The answer of a comparison of two values that stand so. -/
def answers (o : Ordering) : Relation → Bool
  | .equal => o == .eq
  | .differs => o != .eq
  | .less => o == .lt
  | .atMost => o != .gt
  | .greater => o == .gt
  | .atLeast => o != .lt

/-- The comparison has an answer, and it is true. -/
def Holds (op : Relation) (a b : Value) : Prop := compare? op a b = some true

theorem sameKind_symm (a b : Value) : a.sameKind b = b.sameKind a := by
  rw [sameKind, sameKind, Bool.beq_comm]

theorem sameKind_trans (hab : a.sameKind b = true) (hbc : b.sameKind c = true) :
    a.sameKind c = true := by
  rw [sameKind, beq_iff_eq] at hab hbc ⊢
  exact hab.trans hbc

/-- With no order between two values none of the orderings has an answer. -/
theorem compare_of_incomparable {op : Relation} (hop : op ∈ orderings)
    (h : a.standing b = .incomparable ∨ a.sameKind b = false) : compare? op a b = none := by
  have hnone : ∀ {answer : Option Bool}, (a.standing b = .incomparable → answer = none) →
      compare?.ordered a b answer = none := by
    intro answer hanswer
    rw [compare?.ordered]
    obtain h | h := h
    · rw [hanswer h, ite_self]
    · rw [h, if_neg Bool.false_ne_true]
  simp only [orderings, List.mem_cons, List.not_mem_nil, or_false] at hop
  obtain rfl | rfl | rfl | rfl := hop <;> refine hnone fun hs => ?_
  · rw [lt?, hs]
  · rw [le?, hs]
  · rw [gt?, hs]
  · rw [ge?, hs]

/-- With an order between two values of one kind all comparisons are answered by it. -/
theorem compare_of_ordered {o : Ordering} (h : a.standing b = .ordered o) (heq : o = .eq ↔ a.eqv b = true)
    (hkind : a.sameKind b = true) (op : Relation) : compare? op a b = some (answers o op) := by
  have heqv : a.eqv b = (o == .eq) := by rw [Bool.eq_iff_iff, ← heq, beq_iff_eq]
  cases op with
  | equal => rw [compare?, heqv, answers]
  | differs => rw [compare?, heqv, answers, bne]
  | less => rw [compare?, compare?.ordered, if_pos hkind, lt?, h, answers]
  | atMost => rw [compare?, compare?.ordered, if_pos hkind, le?, h, answers]
  | greater => rw [compare?, compare?.ordered, if_pos hkind, gt?, h, answers]
  | atLeast => rw [compare?, compare?.ordered, if_pos hkind, ge?, h, answers]

/-- Two values have no order, or one in which exactly equal values stand equal. -/
theorem standing_cases (ha : a.FloatFree) (hb : b.FloatFree) :
    a.standing b = .incomparable ∨ ∃ o, a.standing b = .ordered o ∧ (o = .eq ↔ a.eqv b = true) := by
  have hagrees := standing_agrees ha hb
  cases hs : a.standing b with
  | incomparable => exact .inl rfl
  | unordered =>
    rw [hs] at hagrees
    cases hagrees
  | ordered o =>
    rw [hs] at hagrees
    cases hagrees with
    | some heq => exact .inr ⟨o, rfl, heq⟩

/-- Either no ordering of two values has an answer, in neither direction, or all comparisons are answered by
one order. -/
theorem compare_cases (ha : a.FloatFree) (hb : b.FloatFree) :
    (∀ op ∈ orderings, compare? op a b = none ∧ compare? op b a = none) ∨
    ∃ o, a.standing b = .ordered o ∧ a.sameKind b = true ∧
      ∀ op, compare? op a b = some (answers o op) ∧ compare? op b a = some (answers o.swap op) := by
  have hswap := standing_swap ha hb
  have hsymm := eqv_symm ha hb
  cases hkind : a.sameKind b with
  | false =>
    have hkind' : b.sameKind a = false := (sameKind_symm b a).trans hkind
    exact .inl fun op hop =>
      ⟨compare_of_incomparable hop (.inr hkind), compare_of_incomparable hop (.inr hkind')⟩
  | true =>
    have hkind' : b.sameKind a = true := (sameKind_symm b a).trans hkind
    obtain hs | ⟨o, hs, heq⟩ := standing_cases ha hb
    · rw [hs] at hswap
      exact .inl fun op hop =>
        ⟨compare_of_incomparable hop (.inl hs), compare_of_incomparable hop (.inl hswap)⟩
    · rw [hs] at hswap
      have heq' : o.swap = .eq ↔ b.eqv a = true := by
        rw [Ordering.swap_eq_eq, ← hsymm]
        exact heq
      exact .inr ⟨o, hs, rfl, fun op =>
        ⟨compare_of_ordered hs heq hkind op, compare_of_ordered hswap heq' hkind' op⟩⟩

theorem holds_less_iff (ha : a.FloatFree) (hb : b.FloatFree) :
    Holds .less a b ↔ a.sameKind b = true ∧ a.standing b = .ordered .lt := by
  constructor
  · intro h
    obtain hnone | ⟨o, hs, hkind, hanswers⟩ := compare_cases ha hb
    · exact nomatch (hnone .less (.head _)).1.symm.trans h
    · have hlt : answers o .less = true := Option.some.inj ((hanswers .less).1.symm.trans h)
      rw [answers, beq_iff_eq] at hlt
      exact ⟨hkind, hlt ▸ hs⟩
  · rintro ⟨hkind, hs⟩
    exact compare_of_ordered hs (by simp [not_eqv_of_standing ha hb hs]) hkind .less

/-- **The comparisons of data without fractions are those of one strict order.** For two values the four of
them are null together. "Greater" is "less" the other way around. Where they are not null, exactly one of
"less", "equal" and "greater" holds, and "at most" is "less or equal". And "less" is transitive. -/
theorem comparisons_strict_order (ha : a.FloatFree) (hb : b.FloatFree) (hc : c.FloatFree) :
    ((∀ op ∈ orderings, compare? op a b = none) ∨ ∀ op ∈ orderings, compare? op a b ≠ none) ∧
    (compare? .greater a b = compare? .less b a ∧ compare? .atLeast a b = compare? .atMost b a) ∧
    (compare? .less a b ≠ none →
      ((Holds .less a b ∧ ¬Holds .equal a b ∧ ¬Holds .less b a) ∨
        (¬Holds .less a b ∧ Holds .equal a b ∧ ¬Holds .less b a) ∨
        (¬Holds .less a b ∧ ¬Holds .equal a b ∧ Holds .less b a)) ∧
      (Holds .atMost a b ↔ Holds .less a b ∨ Holds .equal a b)) ∧
    (Holds .less a b → Holds .less b c → Holds .less a c) := by
  refine ⟨?_, ?_, ?_, fun hab hbc => ?_⟩
  · obtain h | ⟨o, -, -, h⟩ := compare_cases ha hb
    · exact .inl fun op hop => (h op hop).1
    · exact .inr fun op _ => by rw [(h op).1]; exact Option.some_ne_none _
  · obtain h | ⟨o, -, -, h⟩ := compare_cases ha hb
    · rw [(h .greater (by simp [orderings])).1, (h .less (by simp [orderings])).2,
        (h .atLeast (by simp [orderings])).1, (h .atMost (by simp [orderings])).2]
      exact ⟨rfl, rfl⟩
    · rw [(h .greater).1, (h .less).2, (h .atLeast).1, (h .atMost).2]
      cases o <;> exact ⟨rfl, rfl⟩
  · intro hsome
    obtain h | ⟨o, -, -, h⟩ := compare_cases ha hb
    · exact absurd (h .less (by simp [orderings])).1 hsome
    · rw [Holds, Holds, Holds, Holds, (h .less).1, (h .equal).1, (h .less).2, (h .atMost).1]
      cases o <;> decide
  · rw [holds_less_iff ha hb] at hab
    rw [holds_less_iff hb hc] at hbc
    rw [holds_less_iff ha hc]
    exact ⟨sameKind_trans hab.1 hbc.1, standing_trans ha hb hc hab.2 hbc.2⟩

/-- A boolean is as good as an integer inside of lists: `[true, 1] < [1, 2] < [2]`. -/
theorem mixed_lists_strict_order : Holds .less (list [boolean true, whole 1]) (list [whole 2]) := by
  have hpair : ∀ {v w : Value} {p q : Point}, v.At p → w.At q → (list [v, w]).FloatFree := by
    intro v w p q hv hw
    exact .list fun u hu => by
      obtain rfl | hu := List.mem_cons.1 hu
      · exact .point hv
      · exact List.mem_singleton.1 hu ▸ .point hw
  have hmixed : (list [boolean true, whole 1]).FloatFree := hpair (.boolean true) (.whole 1)
  have hwholes : (list [whole 1, whole 2]).FloatFree := hpair (.whole 1) (.whole 2)
  have hsingle : (list [whole 2]).FloatFree :=
    .list fun u hu => List.mem_singleton.1 hu ▸ .point (.whole 2)
  exact (comparisons_strict_order hmixed hwholes hsingle).2.2.2 rfl rfl

end Value

end Criterion

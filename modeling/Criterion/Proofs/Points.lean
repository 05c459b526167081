import Criterion.Proofs.Ordinals
import Criterion.Value.Basic
import Mathlib.Data.Int.Notation
import Mathlib.Order.Compare

/-!
# Points on scales

A value that is no list is compared by a number, a text or a moment in time: a point on one of a few scales.
Booleans and integers share a scale, and times with an offset have another one than times without. Each
scale is a line, and points on different scales have no order.

* `Point.compare?`: how two points compare. It is a strict order on each scale.
* `Value.At`: which point a value is compared by.
* `standing_of_points`, `eqv_of_points`: **values with points stand as their points do, and are equal
  exactly if their points are the same.**
-/

namespace Criterion

/-- What a value that is no list is compared by. -/
inductive Point where
  | number (i : ℤ)
  | text (s : String)
  | day (n : ℕ)
  /-- A time of day, in universal time if it is `zoned`, and a fraction behind it. -/
  | clock (zoned : Bool) (time : ℤ) (fraction : ℕ)
  | moment (zoned : Bool) (micros : ℤ)
  | span (micros : ℤ)
deriving DecidableEq

namespace Point

/-- How two points compare. Points on different scales do not. -/
def compare? : Point → Point → Option Ordering
  | .number a, .number b => some (compare a b)
  | .text a, .text b => some (compare a b)
  | .day a, .day b => some (compare a b)
  | .clock y a m, .clock z b n =>
    if y = z then some ((compare a b).then (compare m n)) else none
  | .moment y a, .moment z b => if y = z then some (compare a b) else none
  | .span a, .span b => some (compare a b)
  | _, _ => none

variable {p q r : Point}

theorem compare_swap (p q : Point) : p.compare? q = (q.compare? p).map Ordering.swap := by
  have hswap : ∀ {α : Type} [Ord α] [Std.OrientedOrd α] (a b : α),
      some (compare a b) = (some (compare b a)).map Ordering.swap := by
    intro α _ _ a b
    rw [Option.map_some, ← Std.OrientedOrd.eq_swap]
  cases p <;> cases q <;> try rfl
  case clock y a m z b n =>
    by_cases h : y = z
    · rw [compare?, compare?, if_pos h, if_pos h.symm, Option.map_some, Ordering.swap_then,
        ← Std.OrientedOrd.eq_swap, ← Std.OrientedOrd.eq_swap]
    · rw [compare?, compare?, if_neg h, if_neg (Ne.symm h)]
      rfl
  case moment y a z b =>
    by_cases h : y = z
    · rw [compare?, compare?, if_pos h, if_pos h.symm]
      exact hswap a b
    · rw [compare?, compare?, if_neg h, if_neg (Ne.symm h)]
      rfl
  all_goals exact hswap _ _

theorem compare_eq_iff : p.compare? q = some .eq ↔ p = q := by
  cases p <;> cases q <;>
    simp only [compare?, reduceCtorEq, Option.ite_none_right_eq_some, Option.some.injEq,
      Ordering.then_eq_eq, Std.compare_eq_iff_eq, number.injEq, text.injEq, day.injEq, clock.injEq,
      moment.injEq, span.injEq]

theorem compare_lt_trans (h : p.compare? q = some .lt) (h' : q.compare? r = some .lt) :
    p.compare? r = some .lt := by
  have htrans : ∀ {α : Type} [Ord α] [Std.TransOrd α] {a b c : α},
      compare a b = .lt → compare b c = .lt → compare a c = .lt :=
    fun hab hbc => Std.TransCmp.lt_trans hab hbc
  -- the three points are on one scale
  cases p <;> cases q <;> try cases h
  all_goals cases r <;> try cases h'
  case clock.clock.clock y a m z b n x c k =>
    simp only [compare?, Option.ite_none_right_eq_some, Option.some.injEq, Ordering.then_eq_lt,
      Std.compare_eq_iff_eq] at h h' ⊢
    obtain ⟨rfl, h⟩ := h
    obtain ⟨rfl, h'⟩ := h'
    refine ⟨rfl, ?_⟩
    rcases h with h | ⟨rfl, h⟩ <;> rcases h' with h' | ⟨rfl, h'⟩
    · exact .inl (htrans h h')
    · exact .inl h
    · exact .inl h'
    · exact .inr ⟨rfl, htrans h h'⟩
  case moment.moment.moment y a z b x c =>
    simp only [compare?, Option.ite_none_right_eq_some, Option.some.injEq] at h h' ⊢
    exact ⟨h.1.trans h'.1, htrans h.2 h'.2⟩
  all_goals exact congrArg some (htrans (Option.some.inj h) (Option.some.inj h'))

end Point

/-! ## The points of values -/

/-- A time without an offset is compared by its microseconds; one with an offset is compared in universal
time, first by whole seconds. -/
def Time.point (t : Time) : Point :=
  .clock t.offset.isSome
    (t.offset.elim t.micros fun o => t.secondOfDay - o.micros.fdiv microsPerSecond)
    (t.offset.elim 0 fun _ => t.microsecond)

def Moment.point (m : Moment) : Point :=
  .moment m.time.offset.isSome (m.time.offset.elim m.localMicros fun o => m.localMicros - o.micros)

/-- The point that a value is compared by. Null, fractions, lists, contexts and functions have none. -/
inductive Value.At : Value → Point → Prop where
  | boolean (b : Bool) : At (.boolean b) (.number (if b then 1 else 0))
  | whole (i : ℤ) : At (.number (.whole i)) (.number i)
  | text (s : String) : At (.text s) (.text s)
  | date (d : Date) : At (.date d) (.day d.ordinal)
  | time (t : Time) : At (.time t) t.point
  | moment (m : Moment) : At (.moment m) m.point
  | duration (d : Duration) : At (.duration d) (.span d.micros)

theorem Time.compare_eq (t u : Time) : t.compare? u = t.point.compare? u.point := by
  unfold Time.compare? Time.point
  have hcast : ∀ m n : ℕ, compare (m : ℤ) (n : ℤ) = compare m n := by
    intro m n
    rw [Int.compare_eq_ite_lt, Nat.compare_eq_ite_lt]
    simp only [Int.ofNat_lt]
  cases t.offset <;> cases u.offset <;> try rfl
  -- without offsets there is no fraction behind the microseconds
  rw [Point.compare?, if_pos rfl]
  simp [hcast]

theorem Moment.compare_eq (m n : Moment) : m.compare? n = m.point.compare? n.point := by
  unfold Moment.compare? Moment.commonMicros? Moment.point
  cases m.time.offset <;> cases n.time.offset <;> rfl

theorem Duration.eq_iff {d e : Duration} : d = e ↔ d.micros = e.micros := by
  obtain ⟨a, ha⟩ := d
  obtain ⟨b, hb⟩ := e
  exact ⟨congrArg Duration.micros, fun h => by dsimp only at h; subst h; rfl⟩

namespace Value

variable {a b : Value} {p q : Point}

/-- **Values with points stand as their points do.** -/
theorem standing_of_points (ha : a.At p) (hb : b.At q) : a.standing b = .ofOption (p.compare? q) := by
  cases ha <;> cases hb <;> try rfl
  case time.time t u => rw [standing, Time.compare_eq]
  case moment.moment m n => rw [standing, Moment.compare_eq]

/-- A comparison of whole numbers finds them equal exactly if they are. -/
theorem eqv_whole (i j : ℤ) : (Number.whole i).eqv (.whole j) = true ↔ Point.number i = .number j := by
  rw [Number.eqv, Number.compare?, beq_iff_eq, Option.some.injEq, Std.compare_eq_iff_eq,
    Point.number.injEq]

/-- **Values with points are equal exactly if their points are the same.** -/
theorem eqv_of_points (ha : a.At p) (hb : b.At q) : a.eqv b = true ↔ p = q := by
  cases ha <;> cases hb
  case boolean.boolean b c => cases b <;> cases c <;> decide
  case boolean.whole b i => rw [eqv, Number.ofBool, eqv_whole]
  case whole.boolean i b => rw [eqv, Number.ofBool, eqv_whole]
  case whole.whole i j => rw [eqv, eqv_whole]
  case text.text s t => rw [eqv, beq_iff_eq, Point.text.injEq]
  case date.date d e => rw [eqv, beq_iff_eq, Point.day.injEq, Date.ordinal_injective.eq_iff]
  case time.time t u => rw [eqv, Time.compare_eq, beq_iff_eq, Point.compare_eq_iff]
  case moment.moment m n => rw [eqv, Moment.compare_eq, beq_iff_eq, Point.compare_eq_iff]
  case duration.duration d e => rw [eqv, beq_iff_eq, Point.span.injEq, Duration.eq_iff]
  -- values of different kinds are on different scales
  all_goals exact ⟨fun h => Bool.noConfusion h, fun h => Point.noConfusion h⟩

end Value

end Criterion

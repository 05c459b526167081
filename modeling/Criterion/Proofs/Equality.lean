import Criterion.Eval
import Criterion.Proofs.Points
import Criterion.Proofs.Rounding
import Criterion.Proofs.Shadowing

/-!
# Equality of values

Integers, fractions and booleans are equal by their place on one line, lists by their elements, and contexts by the
values under their keys. This equality is an equivalence, fractions and infinities included, as long as there is no
fraction that is not a number.

* `Mark`, `Value.Marked`: what a value is equal by that is neither null nor a list nor a context.
* `Value.NaNFree`: data in which every fraction is a number.
* `eqv_of_marks`: values with marks are equal exactly if their marks are the same.
* `NaNFree.eqv_refl`, `NaNFree.eqv_symm`, `NaNFree.eqv_trans`: **equality of such data is an equivalence.**
-/

namespace Criterion

/-! ## Marks -/

/-- What a value is equal by: a place on the line of numbers, in units, or one of its two ends, or a point on one
of the other scales. -/
inductive Mark where
  | units (u : ℤ)
  | infinite (negative : Bool)
  | point (p : Point)
deriving DecidableEq

/-- The mark of a number. -/
inductive Number.Marked : Number → Mark → Prop where
  | whole (i : ℤ) : Marked (.whole i) (.units (i * unitsPerOne))
  | finite (s : Bool) (u : Magnitude) : Marked (.real (.finite s u)) (.units (signed s u.units))
  | infinite (s : Bool) : Marked (.real (.infinite s)) (.infinite s)

namespace Number

variable {m n : Number} {p q : Mark} {u : ℤ} {s : Bool}

/-- No finite number equals an infinity. -/
theorem eqv_infinite (hm : m.Marked (.units u)) (s : Bool) :
    m.eqv (.real (.infinite s)) = false ∧ eqv (.real (.infinite s)) m = false := by
  cases hm with
  | whole i => cases s <;> exact ⟨rfl, rfl⟩
  | finite t v =>
    have hlimit := v.units_lt
    have hplace : signed t v.units ≠ signed s unitsLimit := by
      unfold signed
      split <;> split <;> omega
    exact ⟨beq_eq_false_iff_ne.2 fun heq => hplace (compare_eq_iff_eq.1 (Option.some.inj heq)),
      beq_eq_false_iff_ne.2 fun heq => hplace (compare_eq_iff_eq.1 (Option.some.inj heq)).symm⟩

/-- Numbers are equal exactly if their marks are the same. -/
theorem eqv_of_marks (hm : m.Marked p) (hn : n.Marked q) : m.eqv n = true ↔ p = q := by
  have hunits : ∀ {m : Number} {u : ℤ}, m.Marked (.units u) → m.units? = some u := by
    intro m u h
    cases h <;> rfl
  cases p with
  | point p => cases hm
  | units u =>
    cases q with
    | point q => cases hn
    | units v =>
      rw [eqv, compare_of_units (hunits hm) (hunits hn), beq_iff_eq, Option.some_inj, compare_eq_iff_eq,
        Mark.units.injEq]
    | infinite s =>
      cases hn
      rw [(eqv_infinite hm s).1]
      exact iff_of_false Bool.false_ne_true Mark.noConfusion
  | infinite s =>
    cases hm
    cases q with
    | point q => cases hn
    | units v =>
      rw [(eqv_infinite hn s).2]
      exact iff_of_false Bool.false_ne_true Mark.noConfusion
    | infinite t =>
      cases hn
      cases s <;> cases t <;> decide +kernel

end Number

namespace Value

variable {a b c : Value} {m n : Number} {p q : Mark} {xs ys zs : List Value} {es fs gs : Fields}

/-- The number that a value counts as when it is compared with a number. -/
inductive CountsAs : Value → Number → Prop where
  | boolean (b : Bool) : CountsAs (.boolean b) (.ofBool b)
  | number (n : Number) : CountsAs (.number n) n

/-- The mark of a value that is neither null nor a list nor a context. -/
inductive Marked : Value → Mark → Prop where
  | number {v : Value} {n : Number} {p : Mark} : v.CountsAs n → n.Marked p → Marked v p
  | point {v : Value} {p : Point} : v.At p → (∀ i, p ≠ .number i) → Marked v (.point p)

theorem eqv_of_countsAs (ha : a.CountsAs m) (hb : b.CountsAs n) : a.eqv b = m.eqv n := by
  cases ha <;> cases hb <;> try rfl
  rename_i x y
  cases x <;> cases y <;> decide

/-- What counts as a number equals nothing that has a point on another scale. -/
theorem eqv_number_point {r : Point} (ha : a.CountsAs m) (hb : b.At r) (hr : ∀ i, r ≠ .number i) :
    a.eqv b = false ∧ b.eqv a = false := by
  cases hb with
  | boolean | whole => exact absurd rfl (hr _)
  | _ => cases ha <;> exact ⟨rfl, rfl⟩

/-- **Values with marks are equal exactly if their marks are the same.** -/
theorem eqv_of_marks (ha : a.Marked p) (hb : b.Marked q) : a.eqv b = true ↔ p = q := by
  cases ha with
  | number ha hm =>
    cases hb with
    | number hb hn => rw [eqv_of_countsAs ha hb, Number.eqv_of_marks hm hn]
    | point hb hr =>
      rw [(eqv_number_point ha hb hr).1]
      refine iff_of_false nofun ?_
      rintro rfl
      cases hm
  | point ha hr =>
    cases hb with
    | number hb hn =>
      rw [(eqv_number_point hb ha hr).2]
      refine iff_of_false nofun ?_
      rintro rfl
      cases hn
    | point hb _ => rw [eqv_of_points ha hb, Mark.point.injEq]

/-! ## Data -/

/-- Data in which every fraction is a number: null, what has a mark, and lists and contexts of such data. -/
inductive NaNFree : Value → Prop where
  | null : NaNFree .null
  | marked {v : Value} {p : Mark} (h : v.Marked p) : NaNFree v
  | list {items : List Value} (h : ∀ v ∈ items, NaNFree v) : NaNFree (.list items)
  | context {fields : Fields} (hkeys : (fields.map (·.1)).Nodup) (h : ∀ f ∈ fields, NaNFree f.2) :
    NaNFree (.context fields)

theorem Marked.ne (h : a.Marked p) : a ≠ .null ∧ (∀ xs, a ≠ .list xs) ∧ ∀ es, a ≠ .context es := by
  refine ⟨?_, fun xs => ?_, fun es => ?_⟩ <;>
  · rintro rfl
    rcases h with ⟨⟨⟩, -⟩ | ⟨⟨⟩, -⟩

/-- What has a mark is unlike all that has none. -/
theorem Marked.unlike (h : a.Marked p) : a.eqv .null = false ∧ eqv .null a = false ∧
    (∀ xs, a.eqv (.list xs) = false ∧ eqv (.list xs) a = false) ∧
    ∀ es, a.eqv (.context es) = false ∧ eqv (.context es) a = false := by
  cases h with
  | number h _ => cases h <;> exact ⟨rfl, rfl, fun _ => ⟨rfl, rfl⟩, fun _ => ⟨rfl, rfl⟩⟩
  | point h _ => cases h <;> exact ⟨rfl, rfl, fun _ => ⟨rfl, rfl⟩, fun _ => ⟨rfl, rfl⟩⟩

theorem NaNFree.items (h : (Value.list xs).NaNFree) : ∀ x ∈ xs, x.NaNFree := by
  cases h with
  | marked h => exact absurd rfl (h.ne.2.1 xs)
  | list h => exact h

theorem NaNFree.keys (h : (Value.context es).NaNFree) : (es.map (·.1)).Nodup := by
  cases h with
  | marked h => exact absurd rfl (h.ne.2.2 es)
  | context hkeys h => exact hkeys

theorem NaNFree.fields (h : (Value.context es).NaNFree) : ∀ e ∈ es, e.2.NaNFree := by
  cases h with
  | marked h => exact absurd rfl (h.ne.2.2 es)
  | context hkeys h => exact h

/-- A property of two values holds if it holds of values that are unlike each other, and is handed on from the
parts of two lists or two contexts to these. -/
theorem NaNFree.induction₂ {P : Value → Value → Prop}
    (unlike : ∀ {a b : Value}, a.eqv b = false → b.eqv a = false → P a b)
    (null : P .null .null)
    (marked : ∀ {a b : Value} {p q : Mark}, a.Marked p → b.Marked q → P a b)
    (list : ∀ {xs ys : List Value}, (∀ x ∈ xs, x.NaNFree) → (∀ y ∈ ys, y.NaNFree) →
      (∀ x ∈ xs, ∀ y ∈ ys, P x y) → P (.list xs) (.list ys))
    (context : ∀ {es fs : Fields}, (Value.context es).NaNFree → (Value.context fs).NaNFree →
      (∀ e ∈ es, ∀ f ∈ fs, P e.2 f.2) → P (.context es) (.context fs))
    (ha : a.NaNFree) (hb : b.NaNFree) : P a b := by
  induction ha generalizing b with
  | null =>
    cases hb with
    | null => exact null
    | marked hb => exact unlike hb.unlike.2.1 hb.unlike.1
    | list | context => exact unlike rfl rfl
  | marked ha =>
    cases hb with
    | null => exact unlike ha.unlike.1 ha.unlike.2.1
    | marked hb => exact marked ha hb
    | list => exact unlike (ha.unlike.2.2.1 _).1 (ha.unlike.2.2.1 _).2
    | context => exact unlike (ha.unlike.2.2.2 _).1 (ha.unlike.2.2.2 _).2
  | list hxs ih =>
    cases hb with
    | null | context => exact unlike rfl rfl
    | marked hb => exact unlike (hb.unlike.2.2.1 _).2 (hb.unlike.2.2.1 _).1
    | list hys => exact list hxs hys fun x hx y hy => ih x hx (hys y hy)
  | context hkeys hes ih =>
    cases hb with
    | null | list => exact unlike rfl rfl
    | marked hb => exact unlike (hb.unlike.2.2.2 _).2 (hb.unlike.2.2.2 _).1
    | context hkeys' hfs =>
      exact context (.context hkeys hes) (.context hkeys' hfs) fun e he f hf => ih e he (hfs f hf)

/-! ## An equivalence -/

theorem eqvItems_symm (h : ∀ x ∈ xs, ∀ y ∈ ys, x.eqv y = y.eqv x) :
    eqvItems xs ys = eqvItems ys xs := by
  induction xs generalizing ys with
  | nil => cases ys <;> rfl
  | cons x xs ih =>
    cases ys with
    | nil => rfl
    | cons y ys =>
      have hhead : x.eqv y = y.eqv x := h x (.head xs) y (.head ys)
      have htail : eqvItems xs ys = eqvItems ys xs :=
        ih fun v hv w hw => h v (.tail x hv) w (.tail y hw)
      rw [eqvItems, eqvItems, hhead, htail]

theorem eqvItems_trans
    (h : ∀ x ∈ xs, ∀ y ∈ ys, ∀ z ∈ zs, x.eqv y = true → y.eqv z = true → x.eqv z = true)
    (hxy : eqvItems xs ys = true) (hyz : eqvItems ys zs = true) : eqvItems xs zs = true := by
  induction xs generalizing ys zs with
  | nil =>
    cases ys with
    | nil => exact hyz
    | cons => exact Bool.noConfusion hxy
  | cons x xs ih =>
    cases ys with
    | nil => exact Bool.noConfusion hxy
    | cons y ys =>
      cases zs with
      | nil => exact Bool.noConfusion hyz
      | cons z zs =>
        rw [eqvItems, Bool.and_eq_true] at hxy hyz ⊢
        exact ⟨h x (.head xs) y (.head ys) z (.head zs) hxy.1 hyz.1,
          ih (fun u hu v hv w hw => h u (.tail x hu) v (.tail y hv) w (.tail z hw)) hxy.2 hyz.2⟩

/-- Each of some fields has an equal one under its key in others. -/
def Matched (es fs : Fields) : Prop := ∀ e ∈ es, ∃ f ∈ fs, f.1 = e.1 ∧ e.2.eqv f.2 = true

theorem eqvFields_cons (e : String × Value) (es fs : Fields) :
    eqvFields (e :: es) fs = ((fs.get? e.1).any e.2.eqv && eqvFields es fs) := by
  rw [eqvFields, Fields.get?]
  cases fs.lookup e.1 <;> rfl

theorem eqvFields_iff (hkeys : (fs.map (·.1)).Nodup) : eqvFields es fs = true ↔ Matched es fs := by
  have hfield : ∀ e : String × Value,
      (fs.get? e.1).any e.2.eqv = true ↔ ∃ f ∈ fs, f.1 = e.1 ∧ e.2.eqv f.2 = true := by
    intro e
    rw [Option.any_eq_true]
    constructor
    · rintro ⟨w, hw, heqv⟩
      exact ⟨(e.1, w), mem_of_get hw, rfl, heqv⟩
    · rintro ⟨f, hf, hkey, heqv⟩
      exact ⟨f.2, Fields.get_of_mem hkeys (hkey ▸ hf), heqv⟩
  induction es with
  | nil => exact iff_of_true rfl fun e he => absurd he List.not_mem_nil
  | cons e es ih =>
    rw [eqvFields_cons, Bool.and_eq_true, hfield, Matched, List.forall_mem_cons]
    exact and_congr_right fun _ => ih

theorem eqv_context_iff (hkeys : (fs.map (·.1)).Nodup) :
    (context es).eqv (context fs) = true ↔ es.length = fs.length ∧ Matched es fs := by
  rw [eqv, Bool.and_eq_true, beq_iff_eq, eqvFields_iff hkeys]

/-- As many fields with keys among other ones have the same keys. -/
theorem Matched.keys_perm (hes : (es.map (·.1)).Nodup) (hlength : es.length = fs.length)
    (h : Matched es fs) : (es.map (·.1)).Perm (fs.map (·.1)) := by
  have hsub : es.map (·.1) ⊆ fs.map (·.1) := by
    intro key hkey
    obtain ⟨e, he, rfl⟩ := List.mem_map.1 hkey
    obtain ⟨f, hf, hef, -⟩ := h e he
    exact hef ▸ List.mem_map_of_mem hf
  exact (List.subperm_of_subset hes hsub).perm_of_length_le (by simp [hlength])

theorem Matched.symm (hes : (es.map (·.1)).Nodup) (hfs : (fs.map (·.1)).Nodup)
    (hlength : es.length = fs.length)
    (hsymm : ∀ e ∈ es, ∀ f ∈ fs, e.2.eqv f.2 = f.2.eqv e.2) (h : Matched es fs) :
    Matched fs es := by
  have hperm : (es.map (·.1)).Perm (fs.map (·.1)) := h.keys_perm hes hlength
  intro f hf
  obtain ⟨e, he, hkey⟩ := List.mem_map.1 (hperm.mem_iff.2 (List.mem_map_of_mem hf))
  obtain ⟨f', hf', hkey', heqv⟩ := h e he
  -- there is one field under the key
  have hsame : f' = f := List.inj_on_of_nodup_map hfs hf' hf (hkey'.trans hkey)
  subst hsame
  exact ⟨e, he, hkey, (hsymm e he f' hf').symm.trans heqv⟩

theorem eqvItems_refl (h : ∀ x ∈ xs, x.eqv x = true) : eqvItems xs xs = true := by
  induction xs with
  | nil => rfl
  | cons x xs ih =>
    obtain ⟨hx, hxs⟩ := List.forall_mem_cons.1 h
    rw [eqvItems, hx, ih hxs]
    rfl

theorem NaNFree.eqv_refl (ha : a.NaNFree) : a.eqv a = true := by
  induction ha with
  | null => rfl
  | marked h => exact (eqv_of_marks h h).2 rfl
  | list _ ih =>
    rw [eqv]
    exact eqvItems_refl ih
  | context hkeys _ ih =>
    rw [eqv_context_iff hkeys]
    exact ⟨rfl, fun e he => ⟨e, he, rfl, ih e he⟩⟩

theorem NaNFree.eqv_symm (ha : a.NaNFree) (hb : b.NaNFree) : a.eqv b = b.eqv a := by
  refine NaNFree.induction₂ (P := fun a b => a.eqv b = b.eqv a) ?unlike ?null ?marked ?list ?context ha hb
  case unlike => exact fun h h' => h.trans h'.symm
  case null => rfl
  case marked =>
    intro a b p q ha hb
    rw [Bool.eq_iff_iff, eqv_of_marks ha hb, eqv_of_marks hb ha, eq_comm]
  case list =>
    intro xs ys _ _ ih
    rw [eqv, eqv]
    exact eqvItems_symm ih
  case context =>
    intro es fs hes hfs ih
    have hrev : ∀ f ∈ fs, ∀ e ∈ es, f.2.eqv e.2 = e.2.eqv f.2 := fun f hf e he => (ih e he f hf).symm
    rw [Bool.eq_iff_iff, eqv_context_iff hfs.keys, eqv_context_iff hes.keys]
    exact ⟨fun h => ⟨h.1.symm, h.2.symm hes.keys hfs.keys h.1 ih⟩,
      fun h => ⟨h.1.symm, h.2.symm hfs.keys hes.keys h.1 hrev⟩⟩

theorem NaNFree.eqv_trans (ha : a.NaNFree) (hb : b.NaNFree) (hc : c.NaNFree) (hab : a.eqv b = true)
    (hbc : b.eqv c = true) : a.eqv c = true := by
  refine NaNFree.induction₂
    (P := fun a b => ∀ c, c.NaNFree → a.eqv b = true → b.eqv c = true → a.eqv c = true)
    ?unlike ?null ?marked ?list ?context ha hb c hc hab hbc
  case unlike => exact fun h _ c _ hab => absurd (h.symm.trans hab) Bool.false_ne_true
  case null => exact fun c _ _ hbc => hbc
  case marked =>
    intro a b p q ha hb c hc hab hbc
    cases hc with
    | null => exact absurd (hb.unlike.1.symm.trans hbc) Bool.false_ne_true
    | marked hr =>
      rw [eqv_of_marks ha hb] at hab
      rw [eqv_of_marks hb hr] at hbc
      exact (eqv_of_marks ha hr).2 (hab.trans hbc)
    | list => exact absurd ((hb.unlike.2.2.1 _).1.symm.trans hbc) Bool.false_ne_true
    | context => exact absurd ((hb.unlike.2.2.2 _).1.symm.trans hbc) Bool.false_ne_true
  case list =>
    intro xs ys _ _ ih c hc hab hbc
    cases hc with
    | null | context => cases hbc
    | marked hr => exact absurd ((hr.unlike.2.2.1 ys).2.symm.trans hbc) Bool.false_ne_true
    | list hzs =>
      rw [eqv] at hab hbc ⊢
      exact eqvItems_trans (fun x hx y hy z hz => ih x hx y hy z (hzs z hz)) hab hbc
  case context =>
    intro es fs _ hfs ih c hc hab hbc
    cases hc with
    | null | list => cases hbc
    | marked hr => exact absurd ((hr.unlike.2.2.2 fs).2.symm.trans hbc) Bool.false_ne_true
    | context hkeys hgs =>
      rw [eqv_context_iff hfs.keys] at hab
      rw [eqv_context_iff hkeys] at hbc ⊢
      refine ⟨hab.1.trans hbc.1, fun e he => ?_⟩
      obtain ⟨f, hf, hef, heqv⟩ := hab.2 e he
      obtain ⟨g, hg, hfg, heqv'⟩ := hbc.2 f hf
      exact ⟨g, hg, hfg.trans hef, ih e he f hf g.2 (hgs g hg) heqv heqv'⟩

end Value

end Criterion

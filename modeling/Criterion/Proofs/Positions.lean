import Criterion.Proofs.Ranges
import Criterion.Proofs.Selection
import Criterion.Proofs.Tags

/-!
# Filters by a position

A filter whose condition has the tag of a number selects by position. Positions count from one, or from minus one
back from the end, so that turning the list round and the sign of the position changes nothing. A position that is
null or has a fraction selects nothing.

* `Expr.IsNumeric`, `tag_eq_number_iff`: the conditions with the tag of a number.
* `IsAt`: what stands at a position; `IsAt.unique`, `IsAt.reverse`: it is one value, and the same back from the end.
* `Value.atPosition_of_whole`, `Value.atPosition_of_fraction`: positions with and without a fraction.
* `Value.minus_isWhole`: a sign before a position makes the opposite one.
* `filter_by_position`: **what a filter by a position selects, and that it selects the same in the reverse.**
-/

namespace Criterion

/-! ## Conditions with the tag of a number -/

/-- Numbers, and what signs, arithmetic and choices make of such expressions. -/
inductive Expr.IsNumeric : Expr → Prop where
  | number (n : Number) : IsNumeric (.number n)
  | unary (op : Arithmetic) {a : Expr} : a.IsNumeric → IsNumeric (.unary op a)
  | arithmetic (op : Arithmetic) {a b : Expr} : a.IsNumeric → b.IsNumeric → IsNumeric (.arithmetic op a b)
  | choose (condition : Expr) {yes no : Expr} : yes.IsNumeric → no.IsNumeric →
      IsNumeric (.choose condition yes (some no))

theorem Tag.join_eq_number_iff {a b : Option Tag} :
    Tag.join a b = .number ↔ a = some .number ∧ b = some .number := by
  constructor
  · intro h
    obtain hany | ⟨ha, hb⟩ := Tag.join_cases a b
    · rw [h] at hany
      cases hany
    · rw [h] at ha hb
      exact ⟨ha, hb⟩
  · rintro ⟨rfl, rfl⟩
    rfl

theorem tag_eq_number_iff : ∀ {e : Expr}, e.tag = some .number ↔ e.IsNumeric
  | .number n => ⟨fun _ => .number n, fun _ => rfl⟩
  | .unary op a => by
    rw [Expr.tag, tag_eq_number_iff]
    exact ⟨.unary op, fun | .unary _ ha => ha⟩
  | .arithmetic op a b => by
    rw [Expr.tag, Option.some_inj, Tag.join_eq_number_iff, tag_eq_number_iff, tag_eq_number_iff]
    exact ⟨fun ⟨ha, hb⟩ => .arithmetic op ha hb, fun | .arithmetic _ ha hb => ⟨ha, hb⟩⟩
  | .choose condition yes (some no) => by
    rw [Expr.tag, Option.some_inj, Tag.join_eq_number_iff, tag_eq_number_iff, tag_eq_number_iff]
    exact ⟨fun ⟨hyes, hno⟩ => .choose condition hyes hno, fun | .choose _ hyes hno => ⟨hyes, hno⟩⟩
  | .choose _ _ none | .null | .boolean _ | .text _ | .wildcard | .name _ | .registered _ | .input | .list _
  | .context _ | .relation .. | .between .. | .member .. | .disjunction .. | .conjunction .. | .instanceOf ..
  | .loop .. | .quantified .. | .range .. | .call .. | .path .. | .filter .. | .test .. | .interval ..
  | .procedure => ⟨nofun, nofun⟩

/-! ## What stands at a position -/

/-- What stands at a position: positions count from one, or from minus one back from the end. -/
structure IsAt (items : List Value) (k : ℤ) (item : Value) : Prop where
  forward : ∀ i (h : i < items.length), k = i + 1 → item = items[i]
  backward : ∀ i (h : i < items.length), k = i - items.length → item = items[i]
  outside : k = 0 ∨ items.length < k.natAbs → item = .null

namespace IsAt

variable {items : List Value} {k : ℤ} {a b : Value}

/-- A position is none of the list, or it counts forward or backward. -/
theorem cases (items : List Value) (k : ℤ) :
    (k = 0 ∨ items.length < k.natAbs) ∨
      ∃ i, ∃ _ : i < items.length, k = i + 1 ∨ k = i - items.length := by
  by_cases hout : k = 0 ∨ items.length < k.natAbs
  · exact .inl hout
  · rcases lt_or_ge k 0 with hneg | hpos
    · exact .inr ⟨(items.length + k).toNat, by omega, .inr (by omega)⟩
    · exact .inr ⟨(k - 1).toNat, by omega, .inl (by omega)⟩

theorem unique (ha : IsAt items k a) (hb : IsAt items k b) : a = b := by
  obtain hout | ⟨i, hi, hforward | hbackward⟩ := IsAt.cases items k
  · rw [ha.outside hout, hb.outside hout]
  · rw [ha.forward i hi hforward, hb.forward i hi hforward]
  · rw [ha.backward i hi hbackward, hb.backward i hi hbackward]

/-- What stands at a position stands in the reverse at the opposite one. -/
theorem reverse (h : IsAt items k a) : IsAt items.reverse (-k) a := by
  refine ⟨fun i hi hk => ?_, fun i hi hk => ?_, fun hk => ?_⟩
  · rw [List.length_reverse] at hi
    rw [List.getElem_reverse]
    exact h.backward _ _ (by omega)
  · rw [List.length_reverse] at hi hk
    rw [List.getElem_reverse]
    exact h.forward _ _ (by omega)
  · rw [List.length_reverse] at hk
    exact h.outside (by omega)

end IsAt

/-! ## Positions with and without a fraction -/

theorem Number.truncate_of_whole {n : Number} {k : ℤ} (h : n.whole? = some k) : n.truncate = .ok k := by
  cases n with
  | whole i =>
    cases h
    rfl
  | real x =>
    cases x with
    | nan => cases h
    | infinite s => cases h
    | finite s u =>
      rw [whole?_finite, Option.ite_none_right_eq_some, Option.some_inj] at h
      obtain ⟨hmod, hdiv⟩ := h
      rw [truncate, toWhole, Int.tdiv_eq_ediv_of_dvd (Int.dvd_of_emod_eq_zero hmod), hdiv]

theorem Number.truncate_of_finite {n : Number} (h : n.isFinite = true) : ∃ i, n.truncate = .ok i := by
  cases n with
  | whole i => exact ⟨i, rfl⟩
  | real x =>
    cases x with
    | nan => cases h
    | infinite s => cases h
    | finite s u => exact ⟨_, rfl⟩

namespace Value

variable {w : Value} {k : ℤ}

/-- The place that a position stands for, from zero on from the start; it may be outside of the elements. -/
def placeOf (length : ℕ) (k : ℤ) : ℤ := if k < 0 then length + k else k - 1

/-- What is found at a place, if there is one. -/
def atPlace (items : List Value) (place : ℤ) : Value :=
  if place < 0 then .null else .ofOption items[place.toNat]?

theorem isAt_atPlace (items : List Value) (k : ℤ) : IsAt items k (atPlace items (placeOf items.length k)) := by
  have hitem : ∀ i (h : i < items.length), placeOf items.length k = i →
      atPlace items (placeOf items.length k) = items[i] := by
    intro i h hplace
    rw [hplace, atPlace, if_neg (by omega), Int.toNat_natCast, List.getElem?_eq_getElem h]
    rfl
  refine ⟨fun i h hk => hitem i h ?_, fun i h hk => hitem i h ?_, fun hk => ?_⟩
  · rw [placeOf, if_neg (by omega)]
    omega
  · rw [placeOf, if_pos (by omega)]
    omega
  · unfold atPlace placeOf
    split_ifs
    · rfl
    · omega
    · rfl
    · rw [List.getElem?_eq_none (by omega)]
      rfl

theorem atPosition_of_truncate (items : List Value) {n : Number} {i : ℤ} (h : n.truncate = .ok i) :
    atPosition items (.number n) =
      .ok (if !n.eqv (.whole i) then .null else atPlace items (placeOf items.length i)) := by
  rw [atPosition, h]
  cases hequal : n.eqv (.whole i) <;> simp only [bind, Except.bind, hequal] <;> rfl

/-- A position without a fraction selects what stands at it. -/
theorem atPosition_of_whole (items : List Value) (h : w.IsWhole k) :
    ∃ item, atPosition items w = .ok item ∧ IsAt items k item := by
  obtain ⟨n, rfl⟩ := number_of_kind h.number
  have hequal : n.eqv (.whole k) = true := h.equal
  have htruncate := Number.truncate_of_whole (Number.whole?_eq_some_iff.2 hequal)
  refine ⟨_, ?_, isAt_atPlace items k⟩
  rw [atPosition_of_truncate items htruncate, hequal]
  rfl

/-- A finite number with a fraction stands for no position. -/
theorem atPosition_of_fraction (items : List Value) {n : Number} (hfinite : n.isFinite = true)
    (h : ¬∃ k, (Value.number n).IsWhole k) : atPosition items (.number n) = .ok .null := by
  obtain ⟨i, hi⟩ := Number.truncate_of_finite hfinite
  have hdiffers : n.eqv (.whole i) = false := by
    rw [← Bool.not_eq_true]
    exact fun hequal => h ⟨i, rfl, hequal⟩
  rw [atPosition_of_truncate items hi, hdiffers]
  rfl

end Value

/-! ## Signs of positions -/

/-- Zero less a binary64 number is that number with the other sign. -/
theorem Binary64.zero_sub (s : Bool) (u : Magnitude) :
    ∃ t v, sub zero (.finite s u) = .finite t v ∧ signed t v.units = -signed s u.units := by
  have hsum : signed false Magnitude.zero.units + signed (!s) u.units = -signed s u.units := by
    cases s <;> simp [signed, Magnitude.zero]
  have hmagnitude : (-signed s u.units).natAbs = u.units := by cases s <;> simp [signed]
  rw [sub, neg, zero, add, hsum]
  by_cases hu : -signed s u.units = 0
  · refine ⟨_, _, if_pos hu, ?_⟩
    rw [hu]
    cases s <;> rfl
  · -- the magnitude is one of the format's already
    rw [if_neg hu, hmagnitude, u.roundUnits_units, ofUnits_of _ u.of?_units]
    have hsigned := signed_natAbs (-signed s u.units)
    rw [hmagnitude] at hsigned
    exact ⟨_, u, rfl, hsigned⟩

theorem Number.toReal_zero : (Number.whole 0).toReal = .ok .zero := by
  have hzero : Binary64.ofInt 0 = .zero := by decide +kernel
  rw [toReal, hzero]
  rfl

/-- A sign turns the place of a number on the line round. -/
theorem Number.minus_units {n : Number} {p : ℤ} (hp : n.units? = some p) :
    ∃ m, Number.arithmetic .minus (.whole 0) n = some m ∧ m.units? = some (-p) := by
  cases n with
  | whole i =>
    obtain rfl : i * unitsPerOne = p := Option.some.inj hp
    refine ⟨.whole (0 - i), rfl, ?_⟩
    rw [units?, Int.zero_sub, Int.neg_mul]
  | real x =>
    cases x with
    | nan => cases hp
    | infinite s => cases hp
    | finite s u =>
      obtain rfl : signed s u.units = p := Option.some.inj hp
      obtain ⟨t, v, hsub, hsigned⟩ := Binary64.zero_sub s u
      refine ⟨.real (.finite t v), ?_, congrArg some hsigned⟩
      have hdifference : (Number.whole 0).sub (.real (.finite s u)) = .ok (.real (.finite t v)) := by
        rw [sub, combine, toReal_zero, ← hsub]
        · rfl
        · intro _ _ _ h
          cases h
      rw [arithmetic, hdifference]
      rfl

/-- A sign before a position makes the opposite one. -/
theorem Value.minus_isWhole {w : Value} {k : ℤ} (h : w.IsWhole k) :
    (Value.arithmetic .minus (.whole 0) w).IsWhole (-k) := by
  obtain ⟨n, rfl⟩ := Value.number_of_kind h.number
  obtain ⟨m, hm, hunits⟩ := Number.minus_units (Number.eqv_whole_iff.1 h.equal)
  have hvalue : Value.arithmetic .minus (.whole 0) (.number n) = .number m := by
    show Value.ofOption ((Number.arithmetic .minus (.whole 0) n).map .number) = .number m
    rw [hm]
    rfl
  rw [hvalue]
  refine ⟨rfl, Number.eqv_whole_iff.2 ?_⟩
  rw [hunits, Int.neg_mul]

/-! ## Filters -/

section Filter

variable {registry : Fields} {scope : Scope} {xs e : Expr} {v w : Value}

/-- A filter of what is not null evaluates a condition with the tag of a number once. -/
theorem select_number (hnull : v ≠ .null) (condition : Scope → Eval Value) (scope : Scope) :
    select v (some .number) condition scope =
      (do Run.ofExcept (Value.atPosition v.elements (← condition scope))) := by
  cases v with
  | null => exact absurd rfl hnull
  | _ => rfl

/-- It does so in the scope around the filter, and selects by the value as a position. -/
theorem filter_number (hxs : (xs.eval registry scope).outcome = .ok v) (hnull : v ≠ .null)
    (htag : e.tag = some .number) (he : (e.eval registry scope).outcome = .ok w) :
    ((Expr.filter xs e).eval registry scope).outcome = Value.atPosition v.elements w := by
  rw [Expr.eval, Run.bind_of_ok hxs, htag, select_number hnull, Run.bind_of_ok he]
  rfl

/-- A call of `reverse` with a list. -/
theorem reverse_outcome {source : String} {callee : Expr} {items : List Value}
    (hcallee : (callee.eval registry scope).outcome = .ok (.function (.builtin .reverse)))
    (hxs : (xs.eval registry scope).outcome = .ok (.list items)) :
    ((Expr.call source callee [xs]).eval registry scope).outcome = .ok (.list items.reverse) := by
  have harguments : (Expr.evalItems registry [xs] scope).outcome = .ok [.list items] := by
    rw [Expr.evalItems, Run.bind_of_ok hxs, Expr.evalItems]
    rfl
  rw [Expr.eval, Run.bind_of_ok hcallee]
  dsimp only
  rw [if_neg (by decide), Run.bind_of_ok harguments]
  rfl

/-- The value of a sign before a condition. -/
theorem unary_outcome (op : Arithmetic) (he : (e.eval registry scope).outcome = .ok w) :
    ((Expr.unary op e).eval registry scope).outcome = .ok (.arithmetic op (.whole 0) w) := by
  rw [Expr.eval, Run.bind_of_ok he]
  rfl

/-- Two conditions with opposite positions select the same in a list and in its reverse. -/
theorem filter_reverse {source : String} {callee e' : Expr} {items : List Value} {w' : Value} {k : ℤ}
    (hcallee : (callee.eval registry scope).outcome = .ok (.function (.builtin .reverse)))
    (hxs : (xs.eval registry scope).outcome = .ok (.list items))
    (htag : e.tag = some .number) (he : (e.eval registry scope).outcome = .ok w) (hw : w.IsWhole k)
    (htag' : e'.tag = some .number) (he' : (e'.eval registry scope).outcome = .ok w') (hw' : w'.IsWhole (-k)) :
    ((Expr.filter (.call source callee [xs]) e').eval registry scope).outcome =
      ((Expr.filter xs e).eval registry scope).outcome := by
  obtain ⟨item, hitem, hat⟩ := Value.atPosition_of_whole items hw
  obtain ⟨item', hitem', hat'⟩ := Value.atPosition_of_whole items.reverse hw'
  have hsame : item' = item := hat'.unique hat.reverse
  rw [filter_number hxs nofun htag he, filter_number (reverse_outcome hcallee hxs) nofun htag' he']
  exact hitem'.trans (hsame ▸ hitem.symm)

end Filter

/-- **Positions count from one, and backward from minus one, and they mirror.** The target may be a list or another
value, which is an element by itself. A condition with the tag of a number is a position: without a fraction it
selects what stands at it, and null where nothing does; null and numbers with a fraction select null. A filter of
null is null. In the reverse of a list the opposite position selects the same, also if a sign makes it. -/
theorem filter_by_position (registry : Fields) (scope : Scope) (xs e : Expr) (htag : e.tag = some .number) :
    ((xs.eval registry scope).outcome = .ok .null →
      ((Expr.filter xs e).eval registry scope).outcome = .ok .null) ∧
    ∀ w, (e.eval registry scope).outcome = .ok w →
      (∀ v, (xs.eval registry scope).outcome = .ok v → v ≠ .null →
        (∀ k, w.IsWhole k → ∃ item, ((Expr.filter xs e).eval registry scope).outcome = .ok item ∧
          IsAt v.elements k item) ∧
        ((w = .null ∨ ∃ n, w = .number n ∧ n.isFinite = true ∧ ¬∃ k, w.IsWhole k) →
          ((Expr.filter xs e).eval registry scope).outcome = .ok .null)) ∧
      ∀ k, w.IsWhole k → ∀ items source callee, (xs.eval registry scope).outcome = .ok (.list items) →
        (callee.eval registry scope).outcome = .ok (.function (.builtin .reverse)) →
        (∀ e' w', e'.tag = some .number → (e'.eval registry scope).outcome = .ok w' → w'.IsWhole (-k) →
          ((Expr.filter (.call source callee [xs]) e').eval registry scope).outcome =
            ((Expr.filter xs e).eval registry scope).outcome) ∧
        ((Expr.filter (.call source callee [xs]) (.unary .minus e)).eval registry scope).outcome =
          ((Expr.filter xs e).eval registry scope).outcome := by
  refine ⟨filter_null e, fun w he => ⟨fun v hxs hnull => ⟨fun k hw => ?_, ?_⟩, ?_⟩⟩
  · rw [filter_number hxs hnull htag he]
    exact Value.atPosition_of_whole v.elements hw
  · rw [filter_number hxs hnull htag he]
    rintro (rfl | ⟨n, rfl, hfinite, hfraction⟩)
    · rfl
    · exact Value.atPosition_of_fraction v.elements hfinite hfraction
  · intro k hw items source callee hxs hcallee
    refine ⟨fun e' w' htag' he' hw' => ?_, ?_⟩
    · exact filter_reverse hcallee hxs htag he hw htag' he' hw'
    · have hsign : (Expr.unary .minus e).tag = some .number := htag
      exact filter_reverse hcallee hxs htag he hw hsign (unary_outcome .minus he)
        (Value.minus_isWhole hw)

/-- `[1, 2, 3][if true then -1 else 2]` is the last element, and the first one of the reverse. -/
theorem filter_by_position_last :
    let e : Expr := .choose (.boolean true) (.unary .minus (.number (.whole 1))) (some (.number (.whole 2)))
    ((Expr.filter .oneToThree e).eval standardRegistry (.ofFields [])).outcome = .ok (.whole 3) ∧
      ((Expr.filter (.call "reverse([1, 2, 3])" (.name "reverse") [.oneToThree]) (.unary .minus e)).eval
        standardRegistry (.ofFields [])).outcome = .ok (.whole 3) := by
  intro e
  have htag : e.tag = some .number := tag_eq_number_iff.2 (.choose _ (.unary _ (.number _)) (.number _))
  have he : (e.eval standardRegistry (.ofFields [])).outcome = .ok (.whole (-1)) := by rfl
  have hlast : (Value.whole (-1)).IsWhole (-1) := ⟨rfl, by decide +kernel⟩
  have hxs : (Expr.oneToThree.eval standardRegistry (.ofFields [])).outcome =
      .ok (.list [.whole 1, .whole 2, .whole 3]) := by rfl
  obtain ⟨hselects, hmirror⟩ := (filter_by_position standardRegistry (.ofFields []) .oneToThree e htag).2 _ he
  obtain ⟨item, hitem, hat⟩ := (hselects _ hxs nofun).1 (-1) hlast
  obtain rfl : item = .whole 3 := hat.backward 2 (by decide) rfl
  have hreverse := (hmirror (-1) hlast _ "reverse([1, 2, 3])" (.name "reverse") hxs (by rfl)).2
  exact ⟨hitem, hreverse.trans hitem⟩

end Criterion

import Criterion.Proofs.Applications
import Criterion.Proofs.RoundTrip
import Criterion.Proofs.Timestamps

/-!
# Conversions to text and back

`string` prints a date, a time, a date with a time or an integer, and the function of the kind reads the text. It
gives back the value, with two limits: an integer has a text only up to the digit limit, and an offset of less
than a second, other than none at all, comes back as universal time.

* `readWhole_integerText`: the text of an integer is read as the integer.
* `Time.Legible`: the offset of a time survives being printed.
* `conversions_invert`: **the conversions from text invert the one to text.**
* `conversion_loses_offset`: they lose an offset of half a second.
-/

namespace Criterion

/-! ## Integers -/

/-- Digits and a sign are seen as they are. -/
theorem numeral_eq_self {cs : List Char} (h : ∀ c ∈ cs, c.isDigit = true ∨ c = '-') :
    numeral (String.ofList cs) = cs := by
  have hplain : ∀ c ∈ cs, numeralChar c = c ∧ Text.isNumberBlank c = false := by
    intro c hc
    obtain hdigit | rfl := h c hc
    · have hrange := toNat_of_isDigit hdigit
      refine ⟨if_pos (.inl (by omega)), ?_⟩
      simp only [Text.isNumberBlank, Text.isBlank, Bool.and_eq_false_iff, Bool.or_eq_false_iff,
        decide_eq_false_iff_not, beq_eq_false_iff_ne]
      omega
    · decide
  have hmap : numeral (String.ofList cs) =
      Text.trimWhere Text.isNumberBlank ((String.ofList cs).toList.map numeralChar) := rfl
  rw [hmap, String.toList_ofList, List.map_congr_left fun c hc => (hplain c hc).1, List.map_id']
  exact trimWhere_eq_self fun c hc => (hplain c hc).2

theorem numeral_integerText (i : ℤ) :
    numeral (integerText i) = (if i < 0 then ['-'] else []) ++ Nat.toDigits 10 i.natAbs := by
  have htext : integerText i = String.ofList ((if i < 0 then ['-'] else []) ++ Nat.toDigits 10 i.natAbs) := by
    rw [integerText, naturalText]
    split <;> simp
  rw [htext]
  refine numeral_eq_self fun c hc => ?_
  obtain hsign | hdigit := List.mem_append.1 hc
  · split at hsign
    · exact .inr (List.mem_singleton.1 hsign)
    · cases hsign
  · exact .inl (isDigit_toDigits hdigit)

theorem numeral_toDigits (n : ℕ) : Numeral (Nat.toDigits 10 n) := fun c hc => by
  rw [isNumeral, isDigit_toDigits hc, Bool.true_or]

theorem takeSign_integerText (i : ℤ) :
    takeSign (numeral (integerText i)) = (decide (i < 0), Nat.toDigits 10 i.natAbs) := by
  rw [numeral_integerText]
  by_cases hneg : i < 0
  · rw [if_pos hneg, decide_eq_true hneg]
    rfl
  · rw [if_neg hneg, decide_eq_false hneg]
    exact (numeral_toDigits _).takeSign

/-- **The text of an integer is read as the integer**, up to the digit limit. -/
theorem readWhole_integerText {i : ℤ} (h : i.natAbs < 10 ^ digitLimit) :
    readWhole? (integerText i) = some i := by
  have hlength := length_toDigits_le_digitLimit.2 h
  have hdigits : (Nat.toDigits 10 i.natAbs).all Char.isDigit = true :=
    List.all_eq_true.2 fun c hc => isDigit_toDigits hc
  have hplain : ¬((Nat.toDigits 10 i.natAbs).isEmpty = true ∨
      (!(Nat.toDigits 10 i.natAbs).all Char.isDigit) = true ∨
        digitLimit < (Nat.toDigits 10 i.natAbs).length) := by
    rw [hdigits, List.isEmpty_iff]
    rintro (hempty | hall | hlong)
    · exact Nat.toDigits_ne_nil hempty
    · cases hall
    · omega
  rw [readWhole?, takeSign_integerText]
  simp only [(numeral_toDigits i.natAbs).dropUnderscores?]
  rw [if_neg hplain, digitsValue_eq, Nat.ofDigitChars_ten_toDigits, signed_natAbs]

/-! ## Offsets -/

namespace Time

variable {t : Time}

/-- The offset of a time survives being printed: there is none, or it is zero or at least a second. -/
def Legible (t : Time) : Prop := ∀ o ∈ t.offset, o.micros = 0 ∨ microsPerSecond ≤ o.micros.natAbs

instance : Decidable t.Legible := by
  unfold Legible
  infer_instance

/-- What comes back of a time is the time, or the same time in universal time. -/
theorem asRead_eq (t : Time) :
    t.asRead = if t.Legible then t else { t with offset := some .utc } := by
  obtain ⟨hour, minute, second, microsecond, offset, valid⟩ := t
  rw [asRead]
  cases offset with
  | none =>
    rw [if_pos]
    · rfl
    · intro o ho
      cases ho
  | some o =>
    rw [Option.map_some, Offset.asRead]
    by_cases hlt : o.micros.natAbs < microsPerSecond
    · rw [if_pos hlt]
      split
      · rename_i hlegible
        -- the offset is zero
        obtain hzero | hle := hlegible o rfl
        · obtain ⟨micros, hvalid⟩ := o
          dsimp only at hzero
          subst hzero
          rfl
        · omega
      · rfl
    · rw [if_neg hlt, if_pos]
      intro p hp
      cases hp
      exact .inr (Nat.le_of_not_lt hlt)

end Time

/-! ## Calls -/

section

variable {bindings : Fields} {callee e : Expr} {b : Builtin} {v w : Value} {s : String}

/-- A call of a function for the text of a value. -/
theorem Expr.gives_converted (inner outer : String) (hcallee : callee.Gives bindings (.function (.builtin b)))
    (he : e.Gives bindings v) (hprint : Library.string v = .ok (.text s))
    (harity : b.arity.check b.name 1 = .ok ()) (hread : b.apply [.text s] = .ok w) :
    (Expr.call outer callee [.call inner (.name "string") [e]]).Gives bindings w :=
  .apply hcallee (.cons (he.apply₁ (b := .string) rfl hprint) .nil) harity hread

end

/-- **The conversions from text invert the one to text.** A date comes back as itself, and so does an integer
up to the digit limit. A time or a date with a time comes back as itself too, without an offset or with the
same offset, unless that offset is less than a second and not zero: then it comes back as zero. -/
theorem conversions_invert (bindings : Fields) :
    (∀ d : Date, bindings.get? "d" = some (.date d) →
      (evaluate .standard "date(string(d))" bindings).outcome = .ok (.date d)) ∧
    (∀ t : Time, bindings.get? "t" = some (.time t) →
      (evaluate .standard "time(string(t))" bindings).outcome =
        .ok (.time (if t.Legible then t else { t with offset := some .utc }))) ∧
    (∀ m : Moment, bindings.get? "dt" = some (.moment m) →
      (evaluate .standard "date and time(string(dt))" bindings).outcome =
        .ok (.moment ⟨m.date, if m.time.Legible then m.time else { m.time with offset := some .utc }⟩)) ∧
    (∀ n : ℤ, bindings.get? "n" = some (.whole n) → (Nat.toDigits 10 n.natAbs).length ≤ digitLimit →
      (evaluate .standard "number(string(n))" bindings).outcome = .ok (.whole n)) := by
  refine ⟨fun d hd => ?_, fun t ht => ?_, fun m hm => ?_, fun n hn hlength => ?_⟩
  · have hread : Builtin.apply .date [.text d.text] = .ok (.date d) := by
      rw [Builtin.apply, Library.date, Library.dateOf, d.ofText_text]
      rfl
    exact (Expr.gives_converted "string(d)" "date(string(d))" (Expr.gives_builtin bindings .date)
      (Expr.gives_name (.inl (by decide)) hd) rfl rfl hread).evaluate (by decide +kernel)
  · have hread : Builtin.apply .time [.text t.text] = .ok (.time t.asRead) := by
      rw [Builtin.apply, Library.timeOf, t.ofText_text]
      rfl
    rw [← t.asRead_eq]
    exact (Expr.gives_converted "string(t)" "time(string(t))" (Expr.gives_builtin bindings .time)
      (Expr.gives_name (.inl (by decide)) ht) rfl rfl hread).evaluate (by decide +kernel)
  · have hread : Builtin.apply .dateAndTime [.text m.text] = .ok (.moment m.asRead) := by
      rw [Builtin.apply, Library.momentOf, m.ofText_text]
      rfl
    rw [← m.time.asRead_eq]
    exact (Expr.gives_converted "string(dt)" "date and time(string(dt))" (Expr.gives_dateAndTime bindings)
      (Expr.gives_name (.inl (by decide)) hm) rfl rfl hread).evaluate (by decide +kernel)
  · have hn' := length_toDigits_le_digitLimit.1 hlength
    have hprint : Library.string (.whole n) = .ok (.text (integerText n)) := by
      change (Number.text (.whole n)).map Value.text = _
      rw [text_whole hn']
      rfl
    have hread : Builtin.apply .number [.text (integerText n)] = .ok (.whole n) := by
      rw [Builtin.apply, Library.number, Number.ofText?, readWhole_integerText hn']
      rfl
    exact (Expr.gives_converted "string(n)" "number(string(n))" (Expr.gives_builtin bindings .number)
      (Expr.gives_name (.inl (by decide)) hn) hprint rfl hread).evaluate (by decide +kernel)

/-- A date of the seventh year, a time with a microsecond and an offset of minus one and a half seconds, both
together, and a negative integer. -/
theorem conversions_invert_odd :
    let d : Date := ⟨7, 2, 28, by decide⟩
    let t : Time := ⟨23, 59, 59, 1, some ⟨-1500000, by decide⟩, by decide⟩
    let bindings : Fields :=
      [("d", .date d), ("t", .time t), ("dt", .moment ⟨d, t⟩), ("n", .whole (-120))]
    (evaluate .standard "date(string(d))" bindings).outcome = .ok (.date d) ∧
      (evaluate .standard "time(string(t))" bindings).outcome = .ok (.time t) ∧
      (evaluate .standard "date and time(string(dt))" bindings).outcome = .ok (.moment ⟨d, t⟩) ∧
      (evaluate .standard "number(string(n))" bindings).outcome = .ok (.whole (-120)) := by
  intro d t bindings
  obtain ⟨hdate, htime, hmoment, hnumber⟩ := conversions_invert bindings
  have hlegible : t.Legible := by decide
  have hdigits : (Nat.toDigits 10 (Int.natAbs (-120))).length ≤ digitLimit := by decide
  have ht := htime t rfl
  have hm := hmoment ⟨d, t⟩ rfl
  rw [if_pos hlegible] at ht hm
  exact ⟨hdate d rfl, ht, hm, hnumber (-120) rfl hdigits⟩

/-- A date with a time and an offset of half a second, which is printed as such. -/
def halfSecondOff : Moment := ⟨⟨2020, 1, 2, by decide⟩, ⟨10, 0, 0, 0, some ⟨500000, by decide⟩, by decide⟩⟩

/-- An offset of half a second comes back as universal time, and that is another moment. -/
theorem conversion_loses_offset :
    let back : Moment := ⟨⟨2020, 1, 2, by decide⟩, ⟨10, 0, 0, 0, some .utc, by decide⟩⟩
    (evaluate .standard "string(dt)" [("dt", .moment halfSecondOff)]).outcome =
        .ok (.text "2020-01-02T10:00:00+00:00:00.500000") ∧
      (evaluate .standard "date and time(string(dt))" [("dt", .moment halfSecondOff)]).outcome =
        .ok (.moment back) ∧
      (Value.moment back).eqv (.moment halfSecondOff) = false := by
  have hname : (Expr.name "dt").Gives [("dt", .moment halfSecondOff)] (.moment halfSecondOff) :=
    Expr.gives_name (.inl (by decide)) rfl
  have hprint : Library.string (.moment halfSecondOff) =
      .ok (.text "2020-01-02T10:00:00+00:00:00.500000") := by
    have htext : halfSecondOff.text = "2020-01-02T10:00:00+00:00:00.500000" := by decide +kernel
    rw [← htext]
    rfl
  have hread : Builtin.apply .dateAndTime [.text "2020-01-02T10:00:00+00:00:00.500000"] =
      .ok (.moment ⟨⟨2020, 1, 2, by decide⟩, ⟨10, 0, 0, 0, some .utc, by decide⟩⟩) := by
    have hutc : Moment.ofText? "2020-01-02T10:00:00+00:00:00.500000" =
        some ⟨⟨2020, 1, 2, by decide⟩, ⟨10, 0, 0, 0, some .utc, by decide⟩⟩ := by decide +kernel
    rw [Builtin.apply, Library.momentOf, hutc]
    rfl
  have hcall : (Expr.call "string(dt)" (.name "string") [.name "dt"]).Gives
      [("dt", .moment halfSecondOff)] (.text "2020-01-02T10:00:00+00:00:00.500000") :=
    hname.apply₁ (b := .string) rfl hprint
  refine ⟨?_, ?_, by decide +kernel⟩
  · exact hcall.evaluate (by decide +kernel)
  · exact (Expr.gives_converted "string(dt)" "date and time(string(dt))" (Expr.gives_dateAndTime _) hname
      hprint rfl hread).evaluate (by decide +kernel)

end Criterion

import Criterion.Calendar.Reading
import Criterion.Proofs.Literals
import Criterion.Proofs.Ordinals
import Criterion.Proofs.Rounding

/-!
# Dates and times read back

The printed form of a date or a time is one of the many forms that are read. Each part has its fixed number of
digits, so that it is read up to where the next part begins, and seconds and fractions that are left out are
read as zero. An offset of less than a second is printed, but read as universal time.

* `Iso.digits_padded`: one part.
* `Iso.clockText`, `Iso.clock_clockText`: hours, minutes and what follows them.
* `Offset.asRead`, `Time.asRead`, `Moment.asRead`: what comes back.
* `Date.ofText_text`, `Time.ofText_text`, `Moment.ofText_text`: **a date comes back as itself, and a time or a
  date with a time except for its offset.**
-/

namespace Criterion

/-! ## Parts of fixed width -/

section

variable {width n : ℕ}

theorem toList_padded (width n : ℕ) : (padded width n).toList =
    List.replicate (width - (Nat.toDigits 10 n).length) '0' ++ Nat.toDigits 10 n :=
  String.toList_ofList

theorem length_padded (hwidth : 0 < width) (h : n < 10 ^ width) : (padded width n).toList.length = width := by
  have hlength : (Nat.toDigits 10 n).length ≤ width := (Nat.length_toDigits_le_iff (by omega) hwidth).2 h
  rw [toList_padded, List.length_append, List.length_replicate, Nat.sub_add_cancel hlength]

theorem isDigit_padded {c : Char} (hc : c ∈ (padded width n).toList) : c.isDigit = true := by
  rw [toList_padded, List.mem_append] at hc
  obtain hzero | hdigit := hc
  · rw [(List.mem_replicate.1 hzero).2]
    decide
  · exact isDigit_toDigits hdigit

theorem digitsValue_padded (width n : ℕ) : digitsValue (padded width n).toList = n := by
  have hzeros : ∀ k, (List.replicate k '0').foldl (fun n c => 10 * n + (c.toNat - 48)) 0 = 0 := by
    intro k
    induction k with
    | zero => rfl
    | succ k ih => rw [List.replicate_succ, List.foldl_cons]; exact ih
  rw [toList_padded, digitsValue, List.foldl_append, hzeros]
  exact (digitsValue_eq _).trans Nat.ofDigitChars_ten_toDigits

end

namespace Iso

variable {width n h m s us : ℕ} {rest : List Char}

/-- **A padded number is read up to its last digit.** -/
theorem digits_padded (hwidth : 0 < width) (hn : n < 10 ^ width) (rest : List Char) :
    digits? width ((padded width n).toList ++ rest) = some (n, rest) := by
  have hlength := length_padded hwidth hn
  rw [digits?, List.take_left' hlength, List.drop_left' hlength, digitsValue_padded,
    if_pos ⟨hlength, List.all_eq_true.2 fun c hc => isDigit_padded hc⟩]

theorem digits_padded_end (hwidth : 0 < width) (hn : n < 10 ^ width) :
    digits? width (padded width n).toList = some (n, []) := by
  have hdigits := digits_padded hwidth hn []
  rwa [List.append_nil] at hdigits

/-- A padded number has a digit. -/
theorem padded_ne_nil (width n : ℕ) : (padded width n).toList ≠ [] := by
  rw [toList_padded]
  exact List.append_ne_nil_of_right_ne_nil _ Nat.toDigits_ne_nil

/-- A padded number does not begin with a character that is no digit. -/
theorem head_padded {c : Char} (width n : ℕ) (hc : c.isDigit = false) (rest : List Char) :
    ((padded width n).toList ++ rest).head? ≠ some c := by
  intro hhead
  rw [List.head?_append_of_ne_nil _ (padded_ne_nil width n)] at hhead
  rw [isDigit_padded (List.mem_of_mem_head? hhead)] at hc
  cases hc

/-! ## Clocks -/

/-- Hours and minutes as they are printed, with seconds and a fraction of six digits if there is any. -/
def clockText (h m s us : ℕ) (seconds : Bool) : List Char :=
  (padded 2 h).toList ++ ':' :: ((padded 2 m).toList ++
    if seconds then ':' :: ((padded 2 s).toList ++ if us = 0 then [] else '.' :: (padded 6 us).toList)
    else [])

/-- After a part that a colon follows comes the next part. -/
theorem after_colon (h : rest ≠ []) : after? true (':' :: rest) = some (.part rest) := by
  cases rest with
  | nil => exact absurd rfl h
  | cons => rfl

/-- After a part that a point follows comes a fraction. -/
theorem after_point (h : rest ≠ []) : after? true ('.' :: rest) = some (.fraction rest) := by
  cases rest with
  | nil => exact absurd rfl h
  | cons => rfl

theorem fraction_padded (h m s : ℕ) (hus : us < 10 ^ 6) :
    fraction? h m s (padded 6 us).toList = some ⟨h, m, s, us, true⟩ := by
  rw [fraction?, length_padded (by decide) hus, Nat.min_self, digits_padded_end (by decide) hus]
  exact congrArg (fun u => some (Clock.mk h m s u true)) (Nat.mul_one us)

/-- **A clock is read up to its end**, without seconds if there are none. -/
theorem clock_clockText (seconds : Bool) (hh : h < 10 ^ 2) (hm : m < 10 ^ 2) (hs : s < 10 ^ 2)
    (hus : us < 10 ^ 6) (hseconds : seconds = false → s = 0 ∧ us = 0) :
    clock? (clockText h m s us seconds) = some ⟨h, m, s, us, true⟩ := by
  -- behind a colon there is always a part, so that the colon does not end the text unread
  have hpart : ∀ {n : ℕ} (rest : List Char), n < 10 ^ 2 →
      after? true (':' :: ((padded 2 n).toList ++ rest)) = some (.part ((padded 2 n).toList ++ rest)) ∧
        digits? 2 ((padded 2 n).toList ++ rest) = some (n, rest) := fun rest hn =>
    ⟨after_colon (List.append_ne_nil_of_left_ne_nil (padded_ne_nil 2 _) rest),
      digits_padded (by decide) hn rest⟩
  rw [clockText, clock?, digits_padded (by decide) hh]
  simp only [Option.bind_eq_bind, Option.bind_some, List.head?_cons, beq_self_eq_true, hpart _ hm]
  cases seconds with
  | false =>
    obtain ⟨rfl, rfl⟩ := hseconds rfl
    rfl
  | true =>
    simp only [if_true, hpart _ hs, Option.bind_some]
    by_cases hzero : us = 0
    · rw [if_pos hzero, hzero]
      rfl
    · rw [if_neg hzero, after_point (padded_ne_nil 6 us), Option.bind_some]
      exact fraction_padded h m s hus

/-- A clock is written in digits, colons and a point. -/
theorem mem_clockText {c : Char} {seconds : Bool} (hc : c ∈ clockText h m s us seconds) :
    c.isDigit = true ∨ c = ':' ∨ c = '.' := by
  have hpart : ∀ {width n : ℕ}, c ∈ (padded width n).toList → c.isDigit = true ∨ c = ':' ∨ c = '.' :=
    fun h => .inl (isDigit_padded h)
  rw [clockText, List.mem_append, List.mem_cons, List.mem_append] at hc
  obtain hc | rfl | hc | hc := hc
  · exact hpart hc
  · exact .inr (.inl rfl)
  · exact hpart hc
  · cases seconds with
    | false => cases hc
    | true =>
      rw [if_pos rfl, List.mem_cons, List.mem_append] at hc
      obtain rfl | hc | hc := hc
      · exact .inr (.inl rfl)
      · exact hpart hc
      · split at hc
        · cases hc
        · obtain rfl | hc := List.mem_cons.1 hc
          · exact .inr (.inr rfl)
          · exact hpart hc

/-- A clock ends where a sign stands. -/
theorem span_clockText (h m s us : ℕ) (seconds : Bool) (rest : List Char)
    (hrest : ∀ c ∈ rest.head?, c = '+' ∨ c = '-') :
    ((clockText h m s us seconds ++ rest).takeWhile fun c => !(c == '+' || c == '-' || c == 'Z')) =
        clockText h m s us seconds ∧
      ((clockText h m s us seconds ++ rest).dropWhile fun c => !(c == '+' || c == '-' || c == 'Z')) =
        rest := by
  have hclock : ∀ c ∈ clockText h m s us seconds, (!(c == '+' || c == '-' || c == 'Z')) = true := by
    intro c hc
    obtain hdigit | rfl | rfl := mem_clockText hc
    · simp only [Bool.not_eq_true', Bool.or_eq_false_iff, beq_eq_false_iff_ne]
      refine ⟨⟨?_, ?_⟩, ?_⟩ <;> rintro rfl <;> exact absurd hdigit (by decide)
    · decide
    · decide
  rw [List.takeWhile_append_of_pos hclock, List.dropWhile_append_of_pos hclock]
  cases rest with
  | nil => exact ⟨List.append_nil _, rfl⟩
  | cons c rest =>
    obtain rfl | rfl := hrest c rfl
    · exact ⟨List.append_nil _, rfl⟩
    · exact ⟨List.append_nil _, rfl⟩

end Iso

/-! ## Offsets -/

namespace Offset

variable (o : Offset)

/-- The whole seconds of an offset, in either direction. -/
def seconds : ℕ := o.micros.natAbs / microsPerSecond

/-- The microseconds behind the whole seconds. -/
def fraction : ℕ := o.micros.natAbs % microsPerSecond

/-- The offset that is read where this one is printed: universal time for less than a second. -/
def asRead : Offset := if o.micros.natAbs < microsPerSecond then utc else o

theorem seconds_lt : o.seconds < 86400 :=
  Nat.div_lt_of_lt_mul ((of_decide_eq_true o.valid : o.micros.natAbs < microsPerDay).trans_eq
    (Nat.mul_comm _ _))

theorem fraction_lt : o.fraction < 10 ^ 6 := Nat.mod_lt _ (by decide)

theorem seconds_add_fraction : o.seconds * microsPerSecond + o.fraction = o.micros.natAbs :=
  Nat.div_add_mod' _ _

theorem seconds_eq_zero_iff : o.seconds = 0 ↔ o.micros.natAbs < microsPerSecond :=
  Nat.div_eq_zero_iff_lt (by decide)

/-- The parts of an offset follow its sign, without seconds if there are none. -/
theorem toList_text : o.text.toList = (if o.micros < 0 then '-' else '+') ::
    Iso.clockText (o.seconds / 3600) (o.seconds / 60 % 60) (o.seconds % 60) o.fraction
      (!decide (o.seconds % 60 = 0 ∧ o.fraction = 0)) := by
  have hsign : (if o.micros < 0 then "-" else "+").toList = [if o.micros < 0 then '-' else '+'] := by
    split <;> rfl
  rw [text, Iso.clockText, seconds, fraction]
  generalize o.micros.natAbs / microsPerSecond = seconds
  generalize o.micros.natAbs % microsPerSecond = fraction
  by_cases hfraction : fraction = 0 <;> by_cases hseconds : seconds % 60 = 0 <;>
    simp [hsign, hfraction, hseconds]

/-- **An offset is read where it is printed**, but universal time for less than a second. -/
theorem offset_text : ∃ mark rest, o.text.toList = mark :: rest ∧ (mark = '+' ∨ mark = '-') ∧
    Iso.offset? (mark == '-') rest = some o.asRead := by
  have hlt := o.seconds_lt
  have hparts : o.seconds / 3600 * 3600 + o.seconds / 60 % 60 * 60 + o.seconds % 60 = o.seconds := by omega
  have hclock := Iso.clock_clockText (h := o.seconds / 3600) (m := o.seconds / 60 % 60)
    (s := o.seconds % 60) (!decide (o.seconds % 60 = 0 ∧ o.fraction = 0)) (by omega) (by omega) (by omega)
    o.fraction_lt (by simp)
  have hmark : ((if o.micros < 0 then '-' else '+') == '-') = decide (o.micros < 0) := by
    by_cases hneg : o.micros < 0
    · rw [if_pos hneg, decide_eq_true hneg]
      rfl
    · rw [if_neg hneg, decide_eq_false hneg]
      rfl
  -- the parts come to the whole seconds again, which are none for universal time
  refine ⟨_, _, o.toList_text, (ite_eq_or_eq _ _ _).symm, ?_⟩
  rw [hmark, Iso.offset?, hclock, asRead]
  simp only [Option.bind_eq_bind, Option.bind_some, Bool.not_true, Bool.false_eq_true, if_false, hparts,
    seconds_add_fraction, seconds_eq_zero_iff, signed_natAbs]
  split
  · rfl
  · exact dif_pos o.valid

end Offset

/-! ## Times -/

namespace Time

variable (t : Time)

/-- The time that is read where this one is printed. -/
def asRead : Time := { t with offset := t.offset.map Offset.asRead }

/-- The parts of a time fit in their widths. -/
theorem widths : t.hour < 10 ^ 2 ∧ t.minute < 10 ^ 2 ∧ t.second < 10 ^ 2 ∧ t.microsecond < 10 ^ 6 := by
  have hvalid := t.valid
  rw [isValid, Bool.and_eq_true, Bool.and_eq_true, Bool.and_eq_true, decide_eq_true_eq, decide_eq_true_eq,
    decide_eq_true_eq, decide_eq_true_eq, microsPerSecond] at hvalid
  omega

theorem toList_text : t.text.toList =
    Iso.clockText t.hour t.minute t.second t.microsecond true ++ t.offset.elim [] (·.text.toList) := by
  rw [text, Iso.clockText]
  cases t.offset <;> by_cases hmicros : t.microsecond = 0 <;> simp [hmicros]

/-- **A time is read where it is printed**, and its offset as far as that is. -/
theorem time_text : Iso.time? t.text.toList = some t.asRead := by
  obtain ⟨hh, hm, hs, hus⟩ := t.widths
  have hclock := Iso.clock_clockText true hh hm hs hus nofun
  have htime : ∀ offset, Time.of? t.hour t.minute t.second t.microsecond offset =
      some { t with offset := offset } := fun offset => dif_pos t.valid
  rw [toList_text, Iso.time?, asRead]
  cases hoffset : t.offset with
  | none =>
    obtain ⟨htake, hdrop⟩ := Iso.span_clockText t.hour t.minute t.second t.microsecond true [] nofun
    rw [Option.elim_none]
    dsimp only
    rw [htake, hdrop, hclock]
    exact htime none
  | some o =>
    obtain ⟨mark, rest, htext, hmark, hread⟩ := o.offset_text
    obtain ⟨htake, hdrop⟩ := Iso.span_clockText t.hour t.minute t.second t.microsecond true (mark :: rest)
      fun c hc => by
        cases hc
        exact hmark
    have hz : mark ≠ 'Z' := by
      rintro rfl
      exact absurd hmark (by decide)
    rw [Option.elim_some, htext]
    dsimp only
    rw [htake, hdrop, hclock]
    simp only [Option.bind_eq_bind, Option.bind_some, if_neg hz, hread, htime, Option.map_some]

end Time

/-! ## Texts -/

theorem utf8Size_of_isDigit {c : Char} (h : c.isDigit = true) : c.utf8Size = 1 := by
  have hrange := toNat_of_isDigit h
  exact Char.utf8Size_eq_one_iff.2 (UInt32.le_iff_toNat_le.2 (by change c.toNat ≤ 127; omega))

/-- A text of characters of one byte has these characters for bytes. -/
theorem Iso.bytes_of_small {s : String} (h : ∀ c ∈ s.toList, c.utf8Size = 1) : Iso.bytes s = s.toList := by
  rw [Iso.bytes]
  generalize s.toList = cs at h
  induction cs with
  | nil => rfl
  | cons c cs ih =>
    obtain ⟨hc, hcs⟩ := List.forall_mem_cons.1 h
    rw [List.flatMap_cons, hc, ih hcs]
    rfl

theorem Iso.utf8Size_clockText {h m s us : ℕ} {seconds : Bool} :
    ∀ c ∈ Iso.clockText h m s us seconds, c.utf8Size = 1 := by
  intro c hc
  obtain hdigit | rfl | rfl := Iso.mem_clockText hc
  · exact utf8Size_of_isDigit hdigit
  · rfl
  · rfl

namespace Time

variable (t : Time)

theorem utf8Size_text : ∀ c ∈ t.text.toList, c.utf8Size = 1 := by
  rw [toList_text, List.forall_mem_append]
  refine ⟨Iso.utf8Size_clockText, ?_⟩
  cases t.offset with
  | none => exact fun _ h => absurd h List.not_mem_nil
  | some o =>
    rw [Option.elim_some, o.toList_text, List.forall_mem_cons]
    refine ⟨?_, Iso.utf8Size_clockText⟩
    split <;> rfl

/-- **The text of a time is read as the time**, and its offset as far as that is. -/
theorem ofText_text : Time.ofText? t.text = some t.asRead := by
  have hhead : t.text.toList.head? ≠ some 'T' := by
    rw [toList_text, Iso.clockText, List.append_assoc]
    exact Iso.head_padded 2 t.hour rfl _
  rw [ofText?, Iso.bytes_of_small t.utf8Size_text]
  split
  · rename_i heq
    rw [heq] at hhead
    exact absurd rfl hhead
  · exact t.time_text

end Time

namespace Date

variable (d : Date)

/-- The parts of a date fit in their widths. -/
theorem widths : d.year < 10 ^ 4 ∧ d.month < 10 ^ 2 ∧ d.day < 10 ^ 2 := by
  have hvalid := d.valid
  have hdays : daysInMonth d.year d.month ≤ 31 := by
    unfold daysInMonth
    split_ifs <;> omega
  simp only [isValid, Bool.and_eq_true, decide_eq_true_eq] at hvalid
  omega

theorem toList_text : d.text.toList =
    (padded 4 d.year).toList ++ '-' :: ((padded 2 d.month).toList ++ '-' :: (padded 2 d.day).toList) := by
  rw [text]
  simp

theorem utf8Size_text : ∀ c ∈ d.text.toList, c.utf8Size = 1 := by
  have hpart : ∀ {width n : ℕ}, ∀ c ∈ (padded width n).toList, c.utf8Size = 1 :=
    fun c hc => utf8Size_of_isDigit (isDigit_padded hc)
  rw [toList_text, List.forall_mem_append, List.forall_mem_cons, List.forall_mem_append, List.forall_mem_cons]
  exact ⟨hpart, rfl, hpart, rfl, hpart⟩

theorem length_text : d.text.toList.length = 10 := by
  obtain ⟨hy, hm, hd⟩ := d.widths
  rw [toList_text, List.length_append, List.length_cons, List.length_append, List.length_cons,
    length_padded (by decide) hy, length_padded (by decide) hm, length_padded (by decide) hd]

/-- A date is read where it is printed. -/
theorem date_text : Iso.date? d.text.toList = some d := by
  obtain ⟨hy, hm, hd⟩ := d.widths
  have hmonth : ((padded 2 d.month).toList ++ '-' :: (padded 2 d.day).toList).head? ≠ some 'W' :=
    Iso.head_padded 2 d.month rfl _
  rw [toList_text, Iso.date?, Iso.digits_padded (by decide) hy]
  simp only [Option.bind_eq_bind, Option.bind_some, List.head?_cons, beq_self_eq_true, if_true,
    List.drop_succ_cons, List.drop_zero, beq_iff_eq, hmonth, if_false]
  have hexpect : Iso.expect? '-' ('-' :: (padded 2 d.day).toList) = some (padded 2 d.day).toList := rfl
  simp only [Iso.digits_padded (by decide) hm, Option.bind_some, hexpect, Iso.digits_padded_end (by decide) hd]
  exact dif_pos d.valid

/-- **The text of a date is read as the date.** -/
theorem ofText_text : Date.ofText? d.text = some d := by
  rw [ofText?, Iso.bytes_of_small d.utf8Size_text]
  exact (if_pos (.inr (.inr d.length_text))).trans d.date_text

end Date

namespace Moment

variable (m : Moment)

/-- The date with a time that is read where this one is printed. -/
def asRead : Moment := ⟨m.date, m.time.asRead⟩

theorem toList_text : m.text.toList = m.date.text.toList ++ 'T' :: m.time.text.toList := by
  rw [text]
  simp

theorem utf8Size_text : ∀ c ∈ m.text.toList, c.utf8Size = 1 := by
  rw [toList_text, List.forall_mem_append, List.forall_mem_cons]
  exact ⟨m.date.utf8Size_text, rfl, m.time.utf8Size_text⟩

/-- The printed date takes up ten places, with a hyphen after the year and no week after that. -/
theorem dateLength_text : Iso.dateLength m.text.toList = 10 := by
  have hseven : m.text.toList.length ≠ 7 := by
    rw [toList_text, List.length_append, m.date.length_text]
    omega
  have hyear := length_padded (by decide) m.date.widths.1
  have hfrom : ∀ i, m.text.toList[4 + i]? =
      ('-' :: ((padded 2 m.date.month).toList ++
        ('-' :: (padded 2 m.date.day).toList ++ 'T' :: m.time.text.toList)))[i]? := by
    intro i
    rw [toList_text, Date.toList_text, List.append_assoc,
      List.getElem?_append_right (hyear.trans_le (Nat.le_add_right 4 i)), hyear, Nat.add_sub_cancel_left]
    simp
  have hfour : m.text.toList[4]? = some '-' := hfrom 0
  have hfive : m.text.toList[5]? ≠ some 'W' := by
    rw [hfrom 1, List.getElem?_cons_succ, ← List.head?_eq_getElem?]
    exact Iso.head_padded 2 m.date.month rfl _
  rw [Iso.dateLength, if_neg hseven]
  simp only [hfour]
  rw [if_pos (beq_self_eq_true _), if_neg]
  intro hweek
  split at hweek
  · rename_i c hc
    exact hfive (hc.trans (congrArg some (beq_iff_eq.1 hweek)))
  · cases hweek

/-- **The text of a date with a time is read as these**, and the offset as far as that is. -/
theorem ofText_text : Moment.ofText? m.text = some m.asRead := by
  rw [ofText?, Iso.moment?, Iso.bytes_of_small m.utf8Size_text, dateLength_text, toList_text,
    List.take_left' m.date.length_text, List.drop_left' m.date.length_text, m.date.date_text]
  simp only [Option.bind_eq_bind, Option.bind_some]
  have hseparator : ('T' :: m.time.text.toList).drop 'T'.utf8Size = m.time.text.toList := rfl
  rw [hseparator, m.time.time_text]
  rfl

end Moment

end Criterion

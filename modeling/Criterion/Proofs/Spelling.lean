import Criterion.Artifact
import Criterion.Proofs.Lexing

/-!
# What the text of a token says

The tokens of a source are spelled like their terminals, and their text stands in the source where
they say.

* `Lexeme.Spelled`: the spelling of a token, as the lexer guarantees it.
* `Tokens.spelled`, `Tokens.placed`: the spelling and the place of the tokens of a source.
* `numberLiteral_digits`, `numberLiteral_eq`: a number is read unless it is an integer with more than
  `digitLimit` digits.
-/

namespace Criterion

open Lexer

/-! ## Spelling -/

/-- How a token of a source is spelled. -/
structure Lexeme.Spelled (l : Lexeme) : Prop where
  trivia : l.kind.isTrivia = false
  symbol : l.kind ∈ symbols.map (·.1) → (l.kind, l.text) ∈ symbols
  word : ∀ k, l.kind = .keyword k → (k, l.text) ∈ reserved true
  name : l.kind = .identifier → l.text.toList ∈ namePattern.text
  number : l.kind = .number → l.text.toList ∈ numberPattern.text
  phrase : l.kind = .specialName →
    ∃ x ∈ phrases, l.text.toList ∈ (phrasePattern x.1 x.2.1 x.2.2).text

variable {unary : Bool} {v w cs : List Char} {l : Lexeme}

theorem mem_reserved_true {k : Keyword} {s : String} (h : (k, s) ∈ reserved unary) :
    (k, s) ∈ reserved true := by
  cases unary with
  | true => exact h
  | false => exact List.mem_append_left _ (by simpa [reserved] using h)

theorem keyword_notMem_symbols (k : Keyword) : .keyword k ∉ symbols.map (·.1) := by
  simp [symbols]

/-- A terminal that is no blank and no comment is spelled like itself. -/
theorem spelled_of_scans {t : Terminal} (h : Scans unary v w t) (ht : t.isTrivia = false)
    (start stop : ℕ) : Lexeme.Spelled ⟨t, String.ofList v, start, stop⟩ := by
  obtain ⟨p, hp, hmakes⟩ := h
  have htext := hp.takes.fits.text
  cases hmakes with
  | @reserved k _ hk =>
    refine ⟨rfl, fun h => absurd h (keyword_notMem_symbols k), fun j hj => ?_, fun h => ?_, fun h => ?_,
      fun h => ?_⟩
    · cases hj
      exact mem_reserved_true hk
    all_goals exact Terminal.noConfusion h
  | plain _ =>
    have hmem := hp.mem
    -- operators have kinds of their own, so the other patterns say nothing about their spelling
    have hno : ∀ t ∈ [Terminal.specialName, .dateAndTime, .identifier, .number, .string],
        t ∉ symbols.map (·.1) := by decide
    have hphrases : ∀ x ∈ phrases, x.1 = .specialName ∨ x.1 = .dateAndTime := by decide
    simp only [patterns, wordPatterns, List.mem_append, List.mem_map, List.mem_cons, List.not_mem_nil,
      or_false] at hmem
    rcases hmem with ((⟨x, hx, rfl⟩ | rfl | rfl | rfl | rfl) | rfl | rfl) | ⟨x, hx, rfl⟩
    · have hkind : (phrasePattern x.1 x.2.1 x.2.2).kind = x.1 := rfl
      rw [hkind]
      rcases hphrases x hx with h | h
      · rw [h]
        refine ⟨rfl, fun h => absurd h (hno _ (by simp)), fun _ h => Terminal.noConfusion h,
          fun h => Terminal.noConfusion h, fun h => Terminal.noConfusion h, fun _ => ⟨x, hx, ?_⟩⟩
        rwa [String.toList_ofList]
      · rw [h]
        exact ⟨rfl, fun h => absurd h (hno _ (by simp)), fun _ h => Terminal.noConfusion h,
          fun h => Terminal.noConfusion h, fun h => Terminal.noConfusion h,
          fun h => Terminal.noConfusion h⟩
    · refine ⟨ht, fun h => absurd h (hno .identifier (by simp)), fun _ h => Terminal.noConfusion h,
        fun _ => ?_, fun h => Terminal.noConfusion h, fun h => Terminal.noConfusion h⟩
      rwa [String.toList_ofList]
    · refine ⟨ht, fun h => absurd h (hno .number (by simp)), fun _ h => Terminal.noConfusion h,
        fun h => Terminal.noConfusion h, fun _ => ?_, fun h => Terminal.noConfusion h⟩
      rwa [String.toList_ofList]
    · exact ⟨ht, fun h => absurd h (hno .string (by simp)), fun _ h => Terminal.noConfusion h,
        fun h => Terminal.noConfusion h, fun h => Terminal.noConfusion h,
        fun h => Terminal.noConfusion h⟩
    · cases ht
    · cases ht
    · cases ht
    · have hspelling : String.ofList v = x.2 := by
        rw [show v = x.2.toList from htext, String.ofList_toList]
      have hmem : x.1 ∈ symbols.map (·.1) := List.mem_map_of_mem hx
      refine ⟨ht, fun _ => ?_, fun k hk => ?_, fun h => ?_, fun h => ?_, fun h => ?_⟩
      · show (x.1, String.ofList v) ∈ symbols
        rwa [hspelling]
      · exact absurd (hk ▸ hmem) (keyword_notMem_symbols k)
      · exact absurd (h ▸ hmem) (hno .identifier (by simp))
      · exact absurd (h ▸ hmem) (hno .number (by simp))
      · exact absurd (h ▸ hmem) (hno .specialName (by simp))

/-- The tokens of a source are spelled like their terminals, and none is a blank or a comment. -/
theorem Tokens.spelled {position : ℕ} {ls : List Lexeme} (h : Tokens unary position cs ls) :
    ∀ l ∈ ls, l.Spelled := by
  induction h with
  | done => exact fun _ hl => absurd hl List.not_mem_nil
  | trivia _ _ _ ih => exact ih
  | token hscan ht _ ih => exact List.forall_mem_cons.2 ⟨spelled_of_scans hscan ht _ _, ih⟩

/-- The text of a token stands in the source where the token says. -/
theorem Tokens.placed {position : ℕ} {ls : List Lexeme} (h : Tokens unary position cs ls) :
    ∀ l ∈ ls, position ≤ l.start ∧
      l.text = String.ofList ((cs.drop (l.start - position)).take (l.stop - l.start)) := by
  have hbehind : ∀ (position : ℕ) (v w : List Char) (l : Lexeme), position + v.length ≤ l.start →
      (v ++ w).drop (l.start - position) = w.drop (l.start - (position + v.length)) := by
    intro position v w l hl
    rw [List.drop_append, List.drop_of_length_le (by omega), List.nil_append]
    congr 1
    omega
  induction h with
  | done => exact fun _ hl => absurd hl List.not_mem_nil
  | @trivia position v w _ _ _ _ _ ih =>
    intro l hl
    obtain ⟨hstart, htext⟩ := ih l hl
    exact ⟨by omega, by rw [hbehind position v w l hstart]; exact htext⟩
  | @token position v w t ls _ _ _ ih =>
    refine List.forall_mem_cons.2 ⟨⟨Nat.le_refl _, ?_⟩, fun l hl => ?_⟩
    · simp
    · obtain ⟨hstart, htext⟩ := ih l hl
      exact ⟨by omega, by rw [hbehind position v w l hstart]; exact htext⟩

/-! ## Names -/

/-- A name has no dots. -/
theorem Lexeme.Spelled.name_undotted (h : l.Spelled) (hl : l.kind = .identifier) :
    '.' ∉ l.text.toList := by
  have hpart : ∀ c, isWordStart c = true → c ≠ '.' := by
    rintro c hc rfl
    exact absurd hc (by decide)
  obtain ⟨c, w, htext, hc, hw⟩ := mem_charOf_mul.1 (h.name hl)
  rw [htext]
  rintro (_ | ⟨_, hdot⟩)
  · exact hpart _ hc rfl
  · exact absurd (mem_charOf_kstar.1 hw _ hdot) (by decide)

/-- A text of words that lack a character lacks it, unless it is a blank. -/
theorem lacks_of_phrase {kind : Terminal} {first : String} {more : List String} {d : Char}
    (hd : Text.isBlank d = false) (hwords : ∀ word ∈ first :: more, d ∉ word.toList)
    (h : v ∈ (phrasePattern kind first more).text) : d ∉ v := by
  have hmore : ∀ more : List String, (∀ word ∈ more, d ∉ word.toList) → ∀ w : List Char,
      w ∈ (more.map fun word => charsOf Text.isBlank * spelled word).prod → d ∉ w := by
    intro more
    induction more with
    | nil =>
      rintro - w rfl
      exact List.not_mem_nil
    | cons word more ih =>
      intro hwords w hw
      rw [List.map_cons, List.prod_cons] at hw
      obtain ⟨_, ⟨blanks, hblanks, _, rfl, rfl⟩, rest, hrest, rfl⟩ := Language.mem_mul.1 hw
      obtain ⟨hword, hwords⟩ := List.forall_mem_cons.1 hwords
      simp only [List.mem_append, not_or]
      refine ⟨⟨fun hmem => ?_, hword⟩, ih hwords rest hrest⟩
      rw [(mem_charsOf.1 hblanks).2 _ hmem] at hd
      cases hd
  obtain ⟨hfirst, hwords⟩ := List.forall_mem_cons.1 hwords
  obtain ⟨_, rfl, w, hw, rfl⟩ := Language.mem_mul.1 h
  simp only [List.mem_append, not_or]
  exact ⟨hfirst, hmore more hwords w hw⟩

/-- A builtin name of several words has no dots. -/
theorem Lexeme.Spelled.phrase_undotted (h : l.Spelled) (hl : l.kind = .specialName) :
    '.' ∉ l.text.toList := by
  have hphrases : ∀ x ∈ phrases, ∀ word ∈ x.2.1 :: x.2.2, '.' ∉ word.toList := by decide
  obtain ⟨x, hx, htext⟩ := h.phrase hl
  exact lacks_of_phrase (by decide) (hphrases x hx) htext

/-- A name, of one word or of several, has no question marks. -/
theorem scans_unasked {t : Terminal} (h : Scans unary v w t)
    (ht : t ∈ [Terminal.identifier, .specialName, .dateAndTime]) : '?' ∉ v := by
  obtain ⟨p, hp, hmakes⟩ := h
  have htext := hp.takes.fits.text
  have hphrases : ∀ x ∈ phrases, ∀ word ∈ x.2.1 :: x.2.2, '?' ∉ word.toList := by decide
  have hsymbols : ∀ x ∈ symbols, x.1 ∉ [Terminal.identifier, .specialName, .dateAndTime] := by decide
  cases hmakes with
  | reserved => simp at ht
  | plain _ =>
    have hmem := hp.mem
    simp only [patterns, wordPatterns, List.mem_append, List.mem_map, List.mem_cons, List.not_mem_nil,
      or_false] at hmem
    rcases hmem with ((⟨x, hx, rfl⟩ | rfl | rfl | rfl | rfl) | rfl | rfl) | ⟨x, hx, rfl⟩
    · exact lacks_of_phrase (by decide) (hphrases x hx) htext
    · obtain ⟨c, letters, rfl, hc, hletters⟩ := mem_charOf_mul.1 htext
      rintro (_ | ⟨_, hasked⟩)
      · exact absurd hc (by decide)
      · exact absurd (mem_charOf_kstar.1 hletters _ hasked) (by decide)
    · exact absurd ht (by decide)
    · exact absurd ht (by decide)
    · exact absurd ht (by decide)
    · exact absurd ht (by decide)
    · exact absurd ht (by decide)
    · exact absurd ht (hsymbols x hx)

theorem Tokens.unasked {position : ℕ} {ls : List Lexeme} (h : Tokens unary position cs ls) :
    ∀ l ∈ ls, l.kind ∈ [Terminal.identifier, .specialName, .dateAndTime] → '?' ∉ l.text.toList := by
  induction h with
  | done => exact fun _ hl => absurd hl List.not_mem_nil
  | trivia _ _ _ ih => exact ih
  | token hscan _ _ ih =>
    refine List.forall_mem_cons.2 ⟨fun hkind => ?_, ih⟩
    rw [String.toList_ofList]
    exact scans_unasked hscan hkind

/-! ## Numbers -/

/-- How a number reader sees a character. -/
def numeralChar (c : Char) : Char :=
  if c.toNat < 127 ∨ Text.isNumberBlank c then c
  else match Text.digitValue? c with
    | some d => Char.ofNat (48 + d)
    | none => '?'

/-- The digits of every script are seen as ASCII digits. -/
theorem isDigit_numeralChar {c : Char} (hc : Text.isDigit c = true) :
    (numeralChar c).isDigit = true := by
  have hzeros : ∀ z ∈ Text.zeros, z = 48 ∨ 127 ≤ z ∧ (z + 10 ≤ 133 ∨ 133 < z) ∧
      (z + 10 ≤ 160 ∨ 160 < z) ∧ (z + 10 ≤ 5760 ∨ 5760 < z) ∧ (z + 10 ≤ 8192 ∨ 8202 < z) ∧
      (z + 10 ≤ 8232 ∨ 8233 < z) ∧ (z + 10 ≤ 8239 ∨ 8239 < z) ∧ (z + 10 ≤ 8287 ∨ 8287 < z) ∧
      (z + 10 ≤ 12288 ∨ 12288 < z) := by decide
  have hdigits : ∀ d < 10, (Char.ofNat (48 + d)).isDigit = true := by decide
  obtain ⟨d, hd⟩ := Option.isSome_iff_exists.1 hc
  obtain ⟨z, hz, rfl⟩ := Option.map_eq_some_iff.1 hd
  have hrange := List.find?_some hz
  have hzero := hzeros z (List.mem_of_find?_eq_some hz)
  simp only [Bool.and_eq_true, decide_eq_true_eq] at hrange
  unfold numeralChar
  split
  · rename_i hplain
    have hascii : 48 ≤ c.toNat ∧ c.toNat < 58 := by
      rcases hplain with hlow | hblank
      · omega
      · simp only [Text.isNumberBlank, Text.isBlank, Bool.and_eq_true, Bool.or_eq_true,
          decide_eq_true_eq, beq_iff_eq] at hblank
        omega
    simp only [Char.isDigit, Bool.and_eq_true, decide_eq_true_eq, ge_iff_le, UInt32.le_iff_toNat_le]
    exact ⟨hascii.1, Nat.le_of_lt_succ hascii.2⟩
  · rw [hd]
    exact hdigits _ (by omega)

theorem trimWhere_eq_self {f : Char → Bool} (h : ∀ c ∈ v, f c = false) : Text.trimWhere f v = v := by
  have hdrop : ∀ {cs : List Char}, (∀ c ∈ cs, f c = false) → cs.dropWhile f = cs := by
    intro cs hcs
    cases cs with
    | nil => rfl
    | cons c cs => exact List.dropWhile_cons_of_neg (by simp [hcs c List.mem_cons_self])
  unfold Text.trimWhere
  rw [hdrop h, hdrop fun c hc => h c (List.mem_reverse.1 hc), List.reverse_reverse]

theorem dropUnderscores?_eq_self (previous : Char) (h : ∀ c ∈ v, c ≠ '_') :
    dropUnderscores? previous v = some v := by
  induction v generalizing previous with
  | nil => rfl
  | cons c v ih =>
    obtain ⟨hc, hv⟩ := List.forall_mem_cons.1 h
    rw [dropUnderscores?, if_neg hc, ih c hv]
    · rfl
    · exact fun _ _ h => absurd h hc

/-- A character of a number: a digit or the point. -/
def isNumeral (c : Char) : Bool := c.isDigit || c == '.'

theorem toNat_of_isDigit {c : Char} (hc : c.isDigit = true) : 48 ≤ c.toNat ∧ c.toNat < 58 := by
  simp only [Char.isDigit, Bool.and_eq_true, decide_eq_true_eq, ge_iff_le,
    UInt32.le_iff_toNat_le] at hc
  exact ⟨hc.1, Nat.lt_succ_of_le hc.2⟩

theorem isNumeral_cases {c : Char} (hc : isNumeral c = true) :
    48 ≤ c.toNat ∧ c.toNat < 58 ∨ c = '.' := by
  rw [isNumeral, Bool.or_eq_true, beq_iff_eq] at hc
  exact hc.imp_left toNat_of_isDigit

/-- Text that holds digits and points only. -/
def Numeral (cs : List Char) : Prop := ∀ c ∈ cs, isNumeral c = true

theorem Numeral.takeSign (h : Numeral cs) : takeSign cs = (false, cs) := by
  unfold Criterion.takeSign
  split
  · exact absurd (h '-' List.mem_cons_self) (by decide)
  · exact absurd (h '+' List.mem_cons_self) (by decide)
  · rfl

theorem Numeral.dropUnderscores? (h : Numeral cs) :
    Criterion.dropUnderscores? ' ' cs = some cs := by
  refine dropUnderscores?_eq_self ' ' fun c hc => ?_
  rintro rfl
  exact absurd (h '_' hc) (by decide)

/-- A text of digits and points is no word. -/
theorem Numeral.ne_word (h : Numeral cs) {word : String}
    (hword : word.toList.all isNumeral = false) : String.ofList (cs.map Char.toLower) ≠ word := by
  have hlower : ∀ c, isNumeral c = true → c.toLower = c := by
    intro c hc
    have hupper : ¬ (c.val ≥ 'A'.val ∧ c.val ≤ 'Z'.val) := by
      rcases isNumeral_cases hc with hdigit | rfl
      · intro h
        have hlow : 65 ≤ c.toNat := h.1
        omega
      · decide
    exact dif_neg hupper
  have hmap : cs.map Char.toLower = cs := by
    conv_rhs => rw [← List.map_id cs]
    exact List.map_congr_left fun c hc => hlower c (h c hc)
  rw [hmap]
  rintro rfl
  rw [String.toList_ofList, List.all_eq_true.2 h] at hword
  cases hword

/-- A number is seen without blanks, underscores and signs. -/
theorem numeral_number (hv : ∀ c ∈ v, Text.isDigit c = true ∨ c = '.') :
    numeral (String.ofList v) = v.map numeralChar ∧ Numeral (v.map numeralChar) := by
  have hpoint : numeralChar '.' = '.' := by decide
  have hnumeral : Numeral (v.map numeralChar) := by
    intro c hc
    obtain ⟨d, hd, rfl⟩ := List.mem_map.1 hc
    rcases hv d hd with hdigit | rfl
    · simp [isNumeral, isDigit_numeralChar hdigit]
    · rw [hpoint]
      rfl
  refine ⟨?_, hnumeral⟩
  have hmap : numeral (String.ofList v) =
      Text.trimWhere Text.isNumberBlank ((String.ofList v).toList.map numeralChar) := rfl
  rw [hmap, String.toList_ofList]
  refine trimWhere_eq_self fun c hc => ?_
  rcases isNumeral_cases (hnumeral c hc) with hdigit | rfl
  · simp only [Text.isNumberBlank, Text.isBlank, Bool.and_eq_false_iff, Bool.or_eq_false_iff,
      decide_eq_false_iff_not, beq_eq_false_iff_ne]
    omega
  · decide

theorem isDigit_numerals (hv : ∀ c ∈ v, Text.isDigit c = true) :
    ∀ c ∈ v.map numeralChar, c.isDigit = true := by
  intro c hc
  obtain ⟨d, hd, rfl⟩ := List.mem_map.1 hc
  exact isDigit_numeralChar (hv d hd)

/-- **Digits stand for an integer, unless they are too many.** -/
theorem numberLiteral_digits (hv : ∀ c ∈ v, Text.isDigit c = true) (hne : v ≠ []) :
    numberLiteral (String.ofList v) = if digitLimit < v.length then .error .tooManyDigits
      else .ok (.number (.whole (digitsValue (v.map numeralChar)))) := by
  have hpoint : (String.ofList v).toList.contains '.' = false := by
    have hno : '.' ∉ v := fun h => absurd (hv '.' h) (by rw [isDigit_point]; decide)
    rw [String.toList_ofList]
    simpa using hno
  have hread : readWhole? (String.ofList v) = if digitLimit < v.length then none
      else some (signed false (digitsValue (v.map numeralChar))) := by
    obtain ⟨hnumeral, hall⟩ := numeral_number fun c hc => .inl (hv c hc)
    have hempty : (v.map numeralChar).isEmpty = false := by simpa using hne
    have hall' : (v.map numeralChar).all Char.isDigit = true :=
      List.all_eq_true.2 (isDigit_numerals hv)
    unfold readWhole?
    rw [hnumeral]
    simp only [hall.takeSign, hall.dropUnderscores?, hempty, hall', List.length_map,
      Bool.false_eq_true, Bool.not_true, false_or]
  unfold numberLiteral
  simp only [hpoint, Bool.false_eq_true, if_false, hread]
  by_cases hlong : digitLimit < v.length
  · rw [if_pos hlong, if_pos hlong]
    rfl
  · rw [if_neg hlong, if_neg hlong]
    rfl

/-- **A number is read, unless it is an integer with too many digits.** -/
theorem numberLiteral_eq (hv : v ∈ numberPattern.text) :
    if '.' ∉ v ∧ digitLimit < v.length then
      numberLiteral (String.ofList v) = .error .tooManyDigits
    else ∃ n, numberLiteral (String.ofList v) = .ok (.number n) := by
  obtain ⟨whole, fraction, hwhole, hfraction, hform⟩ := mem_number.1 hv
  rcases hform with ⟨rfl, hne⟩ | ⟨rfl, hne⟩
  · -- digits alone: an integer
    have hno : '.' ∉ v := fun h => absurd (hwhole '.' h) (by rw [isDigit_point]; decide)
    rw [numberLiteral_digits hwhole hne]
    by_cases hlong : digitLimit < v.length
    · rw [if_pos ⟨hno, hlong⟩, if_pos hlong]
    · rw [if_neg fun h => hlong h.2, if_neg hlong]
      exact ⟨_, rfl⟩
  · -- digits, a point and digits
    have hpoint : (String.ofList (whole ++ '.' :: fraction)).toList.contains '.' = true := by
      rw [String.toList_ofList]
      simp
    obtain ⟨hnumeral, hall⟩ := numeral_number (v := whole ++ '.' :: fraction) fun c hc => by
      rcases List.mem_append.1 hc with hc | hc
      · exact .inl (hwhole c hc)
      · exact (List.mem_cons.1 hc).symm.imp_left (hfraction c)
    have hread : ∃ x, readFraction? (String.ofList (whole ++ '.' :: fraction)) = some x := by
      have hsplit : (whole ++ '.' :: fraction).map numeralChar =
          whole.map numeralChar ++ '.' :: fraction.map numeralChar := by
        rw [List.map_append, List.map_cons]
        rfl
      have htake : (whole.map numeralChar ++ '.' :: fraction.map numeralChar).takeWhile Char.isDigit =
          whole.map numeralChar := takeWhile_append_eq (isDigit_numerals hwhole) (by decide) _
      have hdrop : (whole.map numeralChar ++ '.' :: fraction.map numeralChar).dropWhile Char.isDigit =
          '.' :: fraction.map numeralChar := by
        rw [List.dropWhile_append_of_pos (isDigit_numerals hwhole), List.dropWhile_cons_of_neg (by decide)]
      have htake' : (fraction.map numeralChar).takeWhile Char.isDigit = fraction.map numeralChar :=
        List.takeWhile_eq_self_iff.2 (isDigit_numerals hfraction)
      have hdrop' : (fraction.map numeralChar).dropWhile Char.isDigit = [] :=
        List.dropWhile_eq_nil_iff.2 (isDigit_numerals hfraction)
      have hempty : (fraction.map numeralChar).isEmpty = false := by simpa using hne
      unfold readFraction?
      rw [hnumeral, hall.dropUnderscores?]
      simp only [hall.takeSign]
      rw [if_neg (not_or.2 ⟨hall.ne_word (by decide), hall.ne_word (by decide)⟩),
        if_neg (hall.ne_word (by decide)), hsplit]
      unfold readUnsigned?
      simp only [htake, hdrop, htake', hdrop', hempty, Bool.and_false, Bool.false_eq_true, if_false,
        readExponent?]
      exact ⟨_, rfl⟩
    obtain ⟨x, hx⟩ := hread
    rw [if_neg fun h => h.1 (by simp)]
    unfold numberLiteral
    simp only [hpoint, if_true, hx]
    exact ⟨_, rfl⟩

end Criterion

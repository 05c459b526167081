import Criterion.Syntax.Lexer
import Mathlib.Computability.Language
import Mathlib.Data.List.TakeWhile

/-!
# The patterns of the terminals

Each terminal has a pattern: a regular language of texts. At the head of a source the first pattern
of a list wins that fits there at all; it takes the longest text that fits, or the shortest one.

* `patterns`: the patterns in their order.
* `Scans`: a terminal and its text at the head of a source. Reserved words are no names.
* `Scans.unique`: **at most one terminal with one text stands at the head of a source.**
* `Pattern.Read`: a reader finds what a pattern takes. There is one lemma for each reader.
-/

namespace Criterion

open Computability

/-! ## Patterns -/

namespace Lexer

/-- One character of a kind. -/
def charOf (p : Char → Bool) : Language Char := {w | ∃ c, w = [c] ∧ p c = true}

/-- A text. -/
def spelled (s : String) : Language Char := {w | w = s.toList}

/-- One character of a kind or more. -/
def charsOf (p : Char → Bool) : Language Char := charOf p * (charOf p)∗

/-- The texts of a terminal. -/
structure Pattern where
  kind : Terminal
  text : Language Char
  /-- Whether an opening parenthesis must follow, blanks before it aside. -/
  called : Bool
  /-- Whether the shortest text is taken. -/
  shortest : Bool

/-- Words with blanks between them, before an opening parenthesis. -/
def phrasePattern (kind : Terminal) (first : String) (more : List String) : Pattern :=
  ⟨kind, spelled first * (more.map fun word => charsOf Text.isBlank * spelled word).prod, true, false⟩

def plainPattern (kind : Terminal) (text : Language Char) : Pattern := ⟨kind, text, false, false⟩

def namePattern : Pattern := plainPattern .identifier (charOf isWordStart * (charOf isWordPart)∗)

/-- Digits, with a fraction or without one, or a fraction alone. -/
def numberPattern : Pattern := plainPattern .number
  (charsOf Text.isDigit * (1 + spelled "." * charsOf Text.isDigit) +
    spelled "." * charsOf Text.isDigit)

/-- What stands between quotes: characters, and backslashes with the character behind them. -/
def stringPart : Language Char :=
  charOf (fun c => c ≠ '"' ∧ c ≠ '\\') + spelled "\\" * charOf (· ≠ '\n')

def stringPattern : Pattern := plainPattern .string (spelled "\"" * stringPart∗ * spelled "\"")

def blankPattern : Pattern := plainPattern .blank (charsOf isSpace)

def blockPattern : Pattern := ⟨.blockComment, spelled "/*" * ⊤ * spelled "*/", false, true⟩

def linePattern : Pattern := plainPattern .lineComment (spelled "//" * (charOf (· ≠ '\n'))∗)

/-- The patterns of the words, and of what else is not told by its first two characters. -/
def wordPatterns : List Pattern :=
  (phrases.map fun (kind, first, more) => phrasePattern kind first more) ++
    [namePattern, numberPattern, stringPattern, blankPattern]

/-- The patterns in their order: by priority, and the shorter operators behind the longer ones. -/
def patterns : List Pattern :=
  wordPatterns ++ [blockPattern, linePattern] ++
    symbols.map fun (kind, text) => plainPattern kind (spelled text)

/-- What must follow the text. -/
def Pattern.Ahead (p : Pattern) (rest : List Char) : Prop :=
  p.called = true → ∃ blanks more, rest = blanks ++ '(' :: more ∧ ∀ c ∈ blanks, Text.isBlank c = true

/-- The pattern fits the text `v` if `w` follows it. -/
structure Pattern.Fits (p : Pattern) (v w : List Char) : Prop where
  text : v ∈ p.text
  ahead : p.Ahead w

/-- The pattern fits, and it fits no longer text, or no shorter one. -/
structure Pattern.Takes (p : Pattern) (v w : List Char) : Prop where
  fits : p.Fits v w
  best : ∀ v' w', v' ++ w' = v ++ w → p.Fits v' w' →
    if p.shortest then v.length ≤ v'.length else v'.length ≤ v.length

/-- The pattern fits no text at the head. -/
def Pattern.Misses (p : Pattern) (cs : List Char) : Prop := ∀ v w, cs = v ++ w → ¬ p.Fits v w

/-- The first pattern of a list that fits takes a text. -/
inductive Wins : List Pattern → Pattern → List Char → List Char → Prop where
  | here {p : Pattern} {ps : List Pattern} {v w : List Char} : p.Takes v w → Wins (p :: ps) p v w
  | later {p q : Pattern} {ps : List Pattern} {v w : List Char} : q.Misses (v ++ w) →
    Wins ps p v w → Wins (q :: ps) p v w

/-- The words that are no names, with their spelling. Among unary tests there is one more. -/
def reserved (unary : Bool) : List (Keyword × String) :=
  (Keyword.table.map fun (k, spelling, _) => (k, spelling)) ++
    if unary then [(.notWord, "not")] else []

/-- The terminal of a text that a pattern took. -/
inductive Pattern.Makes (unary : Bool) (p : Pattern) (v : List Char) : Terminal → Prop where
  | reserved {k : Keyword} : p.kind = .identifier → (k, String.ofList v) ∈ reserved unary →
    Pattern.Makes unary p v (.keyword k)
  | plain : (p.kind = .identifier → ∀ k, (k, String.ofList v) ∉ Lexer.reserved unary) →
    Pattern.Makes unary p v p.kind

/-- The terminal `t` has the text `v` at the head of a source, before `w`. -/
def Scans (unary : Bool) (v w : List Char) (t : Terminal) : Prop :=
  ∃ p, Wins patterns p v w ∧ p.Makes unary v t

/-! ## One result -/

variable {p q : Pattern} {ps : List Pattern} {v v' w w' cs : List Char}

theorem Pattern.Takes.unique (h : p.Takes v w) (h' : p.Takes v' w') (hcs : v ++ w = v' ++ w') :
    v = v' ∧ w = w' := by
  have hle := h.best v' w' hcs.symm h'.fits
  have hge := h'.best v w hcs h.fits
  refine List.append_inj hcs ?_
  split at hle <;> rename_i hs
  · rw [if_pos hs] at hge
    exact Nat.le_antisymm hle hge
  · rw [if_neg hs] at hge
    exact Nat.le_antisymm hge hle

theorem Wins.takes (h : Wins ps p v w) : p.Takes v w := by
  induction h with
  | here h => exact h
  | later _ _ ih => exact ih

theorem Wins.mem (h : Wins ps p v w) : p ∈ ps := by
  induction h with
  | here _ => exact List.mem_cons_self
  | later _ _ ih => exact List.mem_cons_of_mem _ ih

/-- One pattern wins, with one text. -/
theorem Wins.unique (h : Wins ps p v w) (h' : Wins ps q v' w') (hcs : v ++ w = v' ++ w') :
    p = q ∧ v = v' ∧ w = w' := by
  induction h with
  | here hp =>
    cases h' with
    | here hq => exact ⟨rfl, hp.unique hq hcs⟩
    | later hmiss _ => exact absurd hp.fits (hmiss _ _ hcs.symm)
  | later hmiss _ ih =>
    cases h' with
    | here hq => exact absurd hq.fits (hmiss _ _ hcs)
    | later _ h' => exact ih h' hcs

theorem reserved_unique {unary : Bool} {j k : Keyword} {s : String} (hj : (j, s) ∈ reserved unary)
    (hk : (k, s) ∈ reserved unary) : j = k := by
  have htable : ∀ unary, ∀ x ∈ reserved unary, ∀ y ∈ reserved unary, x.2 = y.2 → x.1 = y.1 := by
    decide
  exact htable unary _ hj _ hk rfl

/-- What stands at the head of a source is one terminal with one text. -/
theorem Scans.unique {unary : Bool} {t t' : Terminal} (h : Scans unary v w t)
    (h' : Scans unary v' w' t') (hcs : v ++ w = v' ++ w') : v = v' ∧ w = w' ∧ t = t' := by
  obtain ⟨p, hp, ht⟩ := h
  obtain ⟨q, hq, ht'⟩ := h'
  obtain ⟨rfl, rfl, rfl⟩ := hp.unique hq hcs
  refine ⟨rfl, rfl, ?_⟩
  cases ht with
  | reserved hkind hj =>
    cases ht' with
    | reserved _ hk => rw [reserved_unique hj hk]
    | plain hno => exact absurd hj (hno hkind _)
  | plain hno =>
    cases ht' with
    | reserved hkind hk => exact absurd hk (hno hkind _)
    | plain _ => rfl

/-! ## Texts of characters -/

theorem mem_charOf_kstar {f : Char → Bool} : v ∈ (charOf f)∗ ↔ ∀ c ∈ v, f c = true := by
  constructor
  · rintro ⟨words, rfl, hwords⟩ c hc
    obtain ⟨word, hword, hc⟩ := List.mem_flatten.1 hc
    obtain ⟨d, rfl, hd⟩ := hwords word hword
    rwa [List.mem_singleton.1 hc]
  · intro h
    refine ⟨v.map fun c => [c], (List.flatMap_singleton' v).symm, ?_⟩
    intro word hword
    obtain ⟨c, hc, rfl⟩ := List.mem_map.1 hword
    exact ⟨c, rfl, h c hc⟩

theorem mem_charOf_mul {f : Char → Bool} {L : Language Char} :
    v ∈ charOf f * L ↔ ∃ c rest, v = c :: rest ∧ f c = true ∧ rest ∈ L := by
  constructor
  · rintro ⟨_, ⟨c, rfl, hc⟩, rest, hrest, rfl⟩
    exact ⟨c, rest, rfl, hc, hrest⟩
  · rintro ⟨c, rest, rfl, hc, hrest⟩
    exact Language.append_mem_mul (a := [c]) ⟨c, rfl, hc⟩ hrest

theorem mem_charsOf {f : Char → Bool} : v ∈ charsOf f ↔ v ≠ [] ∧ ∀ c ∈ v, f c = true := by
  unfold charsOf
  rw [mem_charOf_mul]
  constructor
  · rintro ⟨c, rest, rfl, hc, hrest⟩
    rw [mem_charOf_kstar] at hrest
    exact ⟨List.cons_ne_nil _ _, List.forall_mem_cons.2 ⟨hc, hrest⟩⟩
  · rintro ⟨hne, h⟩
    cases v with
    | nil => exact absurd rfl hne
    | cons c rest =>
      obtain ⟨hc, hrest⟩ := List.forall_mem_cons.1 h
      exact ⟨c, rest, rfl, hc, mem_charOf_kstar.2 hrest⟩

theorem mem_spelled_mul {s : String} {L : Language Char} :
    v ∈ spelled s * L ↔ ∃ rest, v = s.toList ++ rest ∧ rest ∈ L := by
  constructor
  · rintro ⟨_, rfl, rest, hrest, rfl⟩
    exact ⟨rest, rfl, hrest⟩
  · rintro ⟨rest, rfl, hrest⟩
    exact Language.append_mem_mul rfl hrest

/-- The longest run of characters of a kind. -/
theorem length_le_takeWhile {f : Char → Bool} (h : ∀ c ∈ v, f c = true) (w : List Char) :
    v.length ≤ ((v ++ w).takeWhile f).length := by
  rw [List.takeWhile_append_of_pos h, List.length_append]
  omega

theorem takeWhile_append_eq {f : Char → Bool} {c : Char} (h : ∀ c ∈ v, f c = true)
    (hc : f c = false) (w : List Char) : (v ++ c :: w).takeWhile f = v := by
  rw [List.takeWhile_append_of_pos h, List.takeWhile_cons_of_neg (by simp [hc]), List.append_nil]

/-! ## Patterns and their readers -/

/-- A reader of one pattern: the length of the text that the pattern takes, if it fits. -/
structure Pattern.Read (p : Pattern) (cs : List Char) (r : Option ℕ) : Prop where
  taken : ∀ n, r = some n → ∃ v w, cs = v ++ w ∧ v.length = n ∧ p.Takes v w
  missed : r = none → p.Misses cs

/-- A pattern that asks for nothing behind its text. -/
theorem Pattern.Fits.plain {kind : Terminal} {text : Language Char} (h : v ∈ text) :
    (plainPattern kind text).Fits v w := ⟨h, fun h => absurd h Bool.false_ne_true⟩

/-- A pattern fits in one way. -/
theorem Pattern.Takes.of_unique (h : p.Fits v w)
    (hunique : ∀ v' w', v' ++ w' = v ++ w → p.Fits v' w' → v'.length = v.length) :
    p.Takes v w := by
  refine ⟨h, fun v' w' hcs h' => ?_⟩
  have hlength := hunique v' w' hcs h'
  split <;> omega

/-- A pattern of one character and any number of others is read by taking characters. -/
theorem read_run {start part : Char → Bool} (hpart : ∀ c, start c = true → part c = true)
    (kind : Terminal) (cs : List Char) : (plainPattern kind (charOf start * (charOf part)∗)).Read cs
      (if cs.head?.any start then some (cs.takeWhile part).length else none) := by
  constructor
  · intro n hn
    split at hn
    · rename_i hstart
      cases hn
      refine ⟨cs.takeWhile part, cs.dropWhile part, List.takeWhile_append_dropWhile.symm, rfl,
        ⟨.plain ?_, ?_⟩⟩
      · cases cs with
        | nil => cases hstart
        | cons c rest =>
          have hc : start c = true := by simpa using hstart
          have hall := List.all_eq_true.1 (List.all_takeWhile (p := part) (l := rest))
          rw [List.takeWhile_cons_of_pos (hpart c hc)]
          exact mem_charOf_mul.2 ⟨c, _, rfl, hc, mem_charOf_kstar.2 hall⟩
      · intro v' w' hcs hfits
        obtain ⟨c, rest, rfl, hc, hrest⟩ := mem_charOf_mul.1 hfits.text
        rw [List.takeWhile_append_dropWhile] at hcs
        have hall : ∀ d ∈ c :: rest, part d = true :=
          List.forall_mem_cons.2 ⟨hpart c hc, mem_charOf_kstar.1 hrest⟩
        have hle := length_le_takeWhile hall w'
        rwa [hcs] at hle
    · cases hn
  · intro hn v w hcs hfits
    split at hn
    · cases hn
    · rename_i hstart
      obtain ⟨c, rest, rfl, hc, -⟩ := mem_charOf_mul.1 hfits.text
      exact hstart (by simp [hcs, hc])

/-- The two forms of a number: digits, or digits, a point and digits. -/
theorem mem_number : v ∈ numberPattern.text ↔
    ∃ whole fraction, (∀ c ∈ whole, Text.isDigit c = true) ∧
      (∀ c ∈ fraction, Text.isDigit c = true) ∧
      (v = whole ∧ whole ≠ [] ∨ v = whole ++ '.' :: fraction ∧ fraction ≠ []) := by
  have hpoint : ∀ {v}, v ∈ spelled "." * charsOf Text.isDigit ↔
      ∃ fraction, v = '.' :: fraction ∧ fraction ≠ [] ∧ ∀ c ∈ fraction, Text.isDigit c = true := by
    intro v
    rw [mem_spelled_mul]
    exact exists_congr fun fraction => and_congr Iff.rfl mem_charsOf
  constructor
  · rintro (⟨whole, hwhole, tail, htail, rfl⟩ | h)
    · obtain ⟨hne, hall⟩ := mem_charsOf.1 hwhole
      rcases htail with rfl | htail
      · exact ⟨whole, [], hall, by simp, .inl ⟨by simp, hne⟩⟩
      · obtain ⟨fraction, rfl, hne', hall'⟩ := hpoint.1 htail
        exact ⟨whole, fraction, hall, hall', .inr ⟨rfl, hne'⟩⟩
    · obtain ⟨fraction, rfl, hne, hall⟩ := hpoint.1 h
      exact ⟨[], fraction, by simp, hall, .inr ⟨rfl, hne⟩⟩
  · rintro ⟨whole, fraction, hwhole, hfraction, ⟨rfl, hne⟩ | ⟨rfl, hne⟩⟩
    · refine .inl ?_
      have hempty : [] ∈ 1 + spelled "." * charsOf Text.isDigit :=
        (Language.mem_add _ _ _).2 (.inl rfl)
      have hnil := Language.append_mem_mul (mem_charsOf.2 ⟨hne, hwhole⟩) hempty
      rwa [List.append_nil] at hnil
    · have htail := hpoint.2 ⟨fraction, rfl, hne, hfraction⟩
      by_cases hwhole' : whole = []
      · rw [hwhole']
        exact .inr htail
      · exact .inl (Language.append_mem_mul (mem_charsOf.2 ⟨hwhole', hwhole⟩) (.inr htail))

theorem isDigit_point : Text.isDigit '.' = false := by decide

/-- The digits behind a point. -/
def fractionAt : List Char → List Char
  | '.' :: digits => digits.takeWhile Text.isDigit
  | _ => []

theorem number?_eq (cs : List Char) : number? cs =
    if fractionAt (cs.dropWhile Text.isDigit) ≠ [] then
      some ((cs.takeWhile Text.isDigit).length + 1 + (fractionAt (cs.dropWhile Text.isDigit)).length)
    else if cs.takeWhile Text.isDigit ≠ [] then some (cs.takeWhile Text.isDigit).length
    else none := by
  have hdrop : cs.drop (cs.takeWhile Text.isDigit).length = cs.dropWhile Text.isDigit := by
    calc cs.drop (cs.takeWhile Text.isDigit).length
        = (cs.takeWhile Text.isDigit ++ cs.dropWhile Text.isDigit).drop
            (cs.takeWhile Text.isDigit).length := by rw [List.takeWhile_append_dropWhile]
      _ = cs.dropWhile Text.isDigit := List.drop_left
  unfold number?
  simp only [hdrop]
  split
  · rename_i digits hdigits
    simp only [hdigits, fractionAt, ne_eq, List.length_eq_zero_iff]
  · rename_i hno
    have hnil : fractionAt (cs.dropWhile Text.isDigit) = [] := by
      unfold fractionAt
      split
      · exact absurd ‹_› (hno _)
      · rfl
    simp only [hnil, ne_eq, not_true_eq_false, if_false, List.length_eq_zero_iff]

/-- A number at the head of a text has no more digits than stand there. -/
theorem number_length_le (hcs : v ++ w = cs) (hv : v ∈ numberPattern.text) :
    v.length ≤ (cs.takeWhile Text.isDigit).length ∧ cs.takeWhile Text.isDigit ≠ [] ∨
      v.length ≤ (cs.takeWhile Text.isDigit).length + 1 +
          (fractionAt (cs.dropWhile Text.isDigit)).length ∧
        fractionAt (cs.dropWhile Text.isDigit) ≠ [] := by
  obtain ⟨whole, fraction, hwhole, hfraction, ⟨rfl, hne⟩ | ⟨rfl, hne⟩⟩ := mem_number.1 hv
  · have hle := length_le_takeWhile hwhole w
    rw [hcs] at hle
    refine .inl ⟨hle, List.ne_nil_of_length_pos ?_⟩
    have hpos := List.length_pos_iff.2 hne
    omega
  · rw [List.append_assoc, List.cons_append] at hcs
    have htake : cs.takeWhile Text.isDigit = whole := by
      rw [← hcs]
      exact takeWhile_append_eq hwhole isDigit_point _
    have hdrop : cs.dropWhile Text.isDigit = '.' :: (fraction ++ w) := by
      have hsplit := List.takeWhile_append_dropWhile (p := Text.isDigit) (l := cs)
      rw [htake, ← hcs] at hsplit
      rw [← hcs]
      exact List.append_cancel_left hsplit
    have hle := length_le_takeWhile hfraction w
    have hpos := List.length_pos_iff.2 hne
    rw [htake, hdrop]
    refine .inr ⟨?_, List.ne_nil_of_length_pos ?_⟩
    · simp only [fractionAt, List.length_append, List.length_cons]
      omega
    · simp only [fractionAt]
      omega

theorem read_number (cs : List Char) : numberPattern.Read cs (number? cs) := by
  have hsplit := List.takeWhile_append_dropWhile (p := Text.isDigit) (l := cs)
  have hwhole := List.all_eq_true.1 (List.all_takeWhile (p := Text.isDigit) (l := cs))
  rw [number?_eq]
  constructor
  · intro n hn
    split at hn
    · rename_i hne
      cases hn
      obtain ⟨digits, hdigits⟩ : ∃ digits, cs.dropWhile Text.isDigit = '.' :: digits := by
        unfold fractionAt at hne
        split at hne
        · exact ⟨_, ‹_›⟩
        · exact absurd rfl hne
      have hfraction := List.all_eq_true.1 (List.all_takeWhile (p := Text.isDigit) (l := digits))
      rw [hdigits] at hne hsplit ⊢
      refine ⟨cs.takeWhile Text.isDigit ++ '.' :: digits.takeWhile Text.isDigit,
        digits.dropWhile Text.isDigit, ?_, ?_, ⟨.plain ?_, ?_⟩⟩
      · rw [List.append_assoc, List.cons_append, List.takeWhile_append_dropWhile, hsplit]
      · simp only [fractionAt, List.length_append, List.length_cons]
        omega
      · exact mem_number.2 ⟨_, _, hwhole, hfraction, .inr ⟨rfl, hne⟩⟩
      -- no number reaches beyond the digits behind the point
      · intro v' w' hcs hfits
        rw [List.append_assoc, List.cons_append, List.takeWhile_append_dropWhile, hsplit] at hcs
        have hle := number_length_le hcs hfits.text
        rw [hdigits] at hle
        simp only [fractionAt] at hle
        simp only [numberPattern, plainPattern, Bool.false_eq_true, if_false, List.length_append,
          List.length_cons]
        omega
    · rename_i hfraction
      split at hn
      · rename_i hne
        cases hn
        refine ⟨_, _, hsplit.symm, rfl, .plain (mem_number.2 ⟨_, [], hwhole, by simp, .inl ⟨rfl, hne⟩⟩),
          ?_⟩
        intro v' w' hcs hfits
        rw [hsplit] at hcs
        rcases number_length_le hcs hfits.text with ⟨hle, -⟩ | ⟨-, hne'⟩
        · exact hle
        · exact absurd hne' hfraction
      · cases hn
  · intro hn v w hcs hfits
    split at hn
    · cases hn
    · rename_i hfraction
      split at hn
      · cases hn
      · rename_i hnil
        rcases number_length_le hcs.symm hfits.text with ⟨-, hne⟩ | ⟨-, hne⟩
        · exact hnil hne
        · exact hfraction hne

/-! ## Strings and comments -/

/-- What is left of a string: its end, or one part of it and what is left then. -/
theorem mem_stringRest : v ∈ stringPart∗ * spelled "\"" ↔ v = ['"'] ∨
    (∃ c rest, v = c :: rest ∧ (c ≠ '"' ∧ c ≠ '\\') ∧ rest ∈ stringPart∗ * spelled "\"") ∨
      ∃ c rest, v = '\\' :: c :: rest ∧ c ≠ '\n' ∧ rest ∈ stringPart∗ * spelled "\"" := by
  have hunfold : stringPart∗ * spelled "\"" = spelled "\"" +
      (charOf (fun c => c ≠ '"' ∧ c ≠ '\\') * (stringPart∗ * spelled "\"") +
        spelled "\\" * (charOf (· ≠ '\n') * (stringPart∗ * spelled "\""))) := by
    conv_lhs => rw [← Language.one_add_self_mul_kstar_eq_kstar, add_mul, one_mul, mul_assoc]
    nth_rewrite 1 [stringPart]
    rw [add_mul, mul_assoc]
  refine (iff_of_eq (congrArg (v ∈ ·) hunfold)).trans ?_
  rw [Language.mem_add, Language.mem_add, mem_charOf_mul, mem_spelled_mul]
  refine or_congr Iff.rfl (or_congr (by simp) ?_)
  constructor
  · rintro ⟨_, rfl, h⟩
    obtain ⟨c, rest, rfl, hc, hrest⟩ := mem_charOf_mul.1 h
    exact ⟨c, rest, rfl, by simpa using hc, hrest⟩
  · rintro ⟨c, rest, rfl, hc, hrest⟩
    exact ⟨c :: rest, rfl, mem_charOf_mul.2 ⟨c, rest, rfl, by simpa using hc, hrest⟩⟩

theorem closing?_cons {c : Char} (h : c ≠ '"' ∧ c ≠ '\\') (rest : List Char) :
    closing? (c :: rest) = (closing? rest).map (· + 1) := by
  rw [closing?]
  · exact fun h' => h.1 h'
  · exact fun h' _ => h.2 h'
  · exact fun _ _ h' => absurd h' h.2

theorem closing?_append (hv : v ∈ stringPart∗ * spelled "\"") (w : List Char) :
    closing? (v ++ w) = some v.length := by
  induction hk : v.length using Nat.strong_induction_on generalizing v with
  | _ k ih =>
    rcases mem_stringRest.1 hv with rfl | ⟨c, rest, rfl, hc, hrest⟩ | ⟨c, rest, rfl, hc, hrest⟩
    · rw [← hk]; rfl
    · have hlt : rest.length < k := by rw [← hk]; simp
      have hread := ih _ hlt hrest rfl
      rw [List.cons_append, closing?_cons hc, hread, ← hk]
      rfl
    · have hlt : rest.length < k := by rw [← hk]; simp only [List.length_cons]; omega
      have hread := ih _ hlt hrest rfl
      rw [← hk, List.cons_append, List.cons_append]
      simp [closing?, hc, hread]

theorem closing?_eq_some {n : ℕ} (h : closing? cs = some n) :
    ∃ v w, cs = v ++ w ∧ v.length = n ∧ v ∈ stringPart∗ * spelled "\"" := by
  fun_induction closing? cs generalizing n with
  | case1 => cases h
  | case2 rest =>
    cases h
    exact ⟨['"'], rest, rfl, rfl, mem_stringRest.2 (.inl rfl)⟩
  | case3 => cases h
  | case4 => cases h
  | case5 c rest hc ih =>
    obtain ⟨m, hm, rfl⟩ := Option.map_eq_some_iff.1 h
    obtain ⟨v, w, rfl, rfl, hv⟩ := ih hm
    exact ⟨'\\' :: c :: v, w, rfl, rfl, mem_stringRest.2 (.inr (.inr ⟨c, v, rfl, hc, hv⟩))⟩
  | case6 c rest hquote hslash hslash' ih =>
    obtain ⟨m, hm, rfl⟩ := Option.map_eq_some_iff.1 h
    obtain ⟨v, w, rfl, rfl, hv⟩ := ih hm
    refine ⟨c :: v, w, rfl, rfl, mem_stringRest.2 (.inr (.inl ⟨c, v, rfl, ⟨hquote, ?_⟩, hv⟩))⟩
    rintro rfl
    cases hrest : v ++ w with
    | nil => exact hslash rfl hrest
    | cons d more => exact hslash' d more rfl hrest

/-- The end of a string is told by its beginning. -/
theorem read_string (cs : List Char) : stringPattern.Read cs
    (if cs.head? = '"' then (closing? cs.tail).map (· + 1) else none) := by
  have hfits : ∀ {v w}, stringPattern.Fits v w →
      ∃ rest, v = '"' :: rest ∧ rest ∈ stringPart∗ * spelled "\"" := by
    intro v w h
    have htext : v ∈ spelled "\"" * (stringPart∗ * spelled "\"") := by
      rw [← mul_assoc]
      exact h.text
    exact mem_spelled_mul.1 htext
  constructor
  · intro n hn
    split at hn
    · rename_i hquote
      obtain ⟨m, hm, rfl⟩ := Option.map_eq_some_iff.1 hn
      obtain ⟨rest, rfl⟩ : ∃ rest, cs = '"' :: rest := by
        cases cs with
        | nil => cases hquote
        | cons c rest => exact ⟨rest, by cases hquote; rfl⟩
      obtain ⟨v, w, hsplit, rfl, hv⟩ := closing?_eq_some hm
      obtain rfl : rest = v ++ w := hsplit
      have htext : '"' :: v ∈ stringPattern.text := by
        have hmem : '"' :: v ∈ spelled "\"" * (stringPart∗ * spelled "\"") :=
          mem_spelled_mul.2 ⟨v, rfl, hv⟩
        rwa [← mul_assoc] at hmem
      refine ⟨'"' :: v, w, rfl, rfl, .of_unique (.plain htext) fun v' w' hcs h => ?_⟩
      obtain ⟨rest', rfl, hrest'⟩ := hfits h
      rw [List.cons_append, List.cons_append] at hcs
      -- two strings at one head end at the same quote
      have hread := closing?_append hrest' w'
      rw [(List.cons.inj hcs).2, closing?_append hv] at hread
      simpa using (Option.some.inj hread).symm
    · cases hn
  · intro hn v w hcs h
    obtain ⟨rest, rfl, hrest⟩ := hfits h
    rw [hcs] at hn
    simp [closing?_append hrest] at hn

theorem commentEnd?_eq_some {n : ℕ} (h : commentEnd? cs = some n) :
    ∃ u w, cs = u ++ '*' :: '/' :: w ∧ u.length + 2 = n ∧
      ∀ u' w', cs = u' ++ '*' :: '/' :: w' → u.length ≤ u'.length := by
  fun_induction commentEnd? cs generalizing n with
  | case1 => cases h
  | case2 rest =>
    cases h
    exact ⟨[], rest, rfl, rfl, fun _ _ _ => Nat.zero_le _⟩
  | case3 c rest hend ih =>
    obtain ⟨m, hm, rfl⟩ := Option.map_eq_some_iff.1 h
    obtain ⟨u, w, hrest, rfl, hshortest⟩ := ih hm
    refine ⟨c :: u, w, by rw [hrest, List.cons_append], rfl, ?_⟩
    intro u' w' hcs
    cases u' with
    | nil =>
      obtain ⟨rfl, hrest'⟩ := List.cons.inj hcs
      exact absurd hrest' (hend w' rfl)
    | cons d u' =>
      have hle := hshortest u' w' (List.cons.inj hcs).2
      simpa using hle

theorem commentEnd?_eq_none (h : commentEnd? cs = none) (u w : List Char) :
    cs ≠ u ++ '*' :: '/' :: w := by
  fun_induction commentEnd? cs generalizing u with
  | case1 => simp
  | case2 => cases h
  | case3 c rest hend ih =>
    intro hcs
    cases u with
    | nil =>
      obtain ⟨rfl, hrest⟩ := List.cons.inj hcs
      exact hend w rfl hrest
    | cons d u => exact ih (Option.map_eq_none_iff.1 h) u (List.cons.inj hcs).2

theorem mem_blockComment : v ∈ blockPattern.text ↔ ∃ u, v = '/' :: '*' :: (u ++ ['*', '/']) := by
  constructor
  · rintro ⟨_, ⟨_, rfl, u, -, rfl⟩, _, rfl, rfl⟩
    exact ⟨u, rfl⟩
  · rintro ⟨u, rfl⟩
    exact ⟨_, ⟨_, rfl, u, trivial, rfl⟩, _, rfl, by simp⟩

theorem mem_lineComment : v ∈ linePattern.text ↔
    ∃ u, v = '/' :: '/' :: u ∧ ∀ c ∈ u, c ≠ '\n' := by
  refine mem_spelled_mul.trans (exists_congr fun u => and_congr Iff.rfl ?_)
  rw [mem_charOf_kstar]
  simp

/-- A block comment ends as soon as it can. -/
theorem read_block (cs : List Char) : blockPattern.Read ('/' :: '*' :: cs)
    ((commentEnd? cs).map (2 + ·)) := by
  constructor
  · intro n hn
    obtain ⟨m, hm, rfl⟩ := Option.map_eq_some_iff.1 hn
    obtain ⟨u, w, rfl, rfl, hshortest⟩ := commentEnd?_eq_some hm
    refine ⟨'/' :: '*' :: (u ++ ['*', '/']), w, by simp, by simp; omega, ⟨⟨mem_blockComment.2 ⟨u, rfl⟩,
      fun h => absurd h Bool.false_ne_true⟩, ?_⟩⟩
    intro v' w' hcs h
    obtain ⟨u', rfl⟩ := mem_blockComment.1 h.text
    have hle := hshortest u' w' (by simpa using hcs.symm)
    simpa [blockPattern] using hle
  · intro hn v w hcs h
    obtain ⟨u, rfl⟩ := mem_blockComment.1 h.text
    exact commentEnd?_eq_none (Option.map_eq_none_iff.1 hn) u w (by simpa using hcs)

theorem takes_line (cs : List Char) : linePattern.Takes
    ('/' :: '/' :: cs.takeWhile (· != '\n')) (cs.dropWhile (· != '\n')) := by
  have hall := List.all_eq_true.1 (List.all_takeWhile (p := (· != '\n')) (l := cs))
  refine ⟨.plain (mem_lineComment.2 ⟨_, rfl, fun c hc => by simpa using hall c hc⟩), ?_⟩
  intro v' w' hcs h
  obtain ⟨u, rfl, hu⟩ := mem_lineComment.1 h.text
  have hcs' : u ++ w' = cs := by
    simpa [List.takeWhile_append_dropWhile] using hcs
  have hle := length_le_takeWhile (f := (· != '\n')) (fun c hc => by simpa using hu c hc) w'
  rw [hcs'] at hle
  simpa [linePattern, plainPattern] using hle

/-! ## Phrases -/

/-- The word begins with a character that is no blank. -/
def Firm (word : String) : Prop := ∃ c ∈ word.toList.head?, Text.isBlank c = false

/-- Each word with blanks before it. -/
def spaced (more : List String) : Language Char :=
  (more.map fun word => charsOf Text.isBlank * spelled word).prod

theorem afterWords?_eq_some {more : List String} (hmore : ∀ word ∈ more, Firm word)
    {rest : List Char} :
    afterWords? more cs = some rest ↔ ∃ v, cs = v ++ rest ∧ v ∈ spaced more := by
  induction more generalizing cs with
  | nil =>
    constructor
    · intro h
      cases h
      exact ⟨[], rfl, rfl⟩
    · rintro ⟨_, rfl, rfl⟩
      rfl
  | cons word more ih =>
    obtain ⟨⟨c, hhead, hc⟩, hmore⟩ := List.forall_mem_cons.1 hmore
    obtain ⟨letters, hword⟩ := List.head?_eq_some_iff.1 hhead
    have hspaced : spaced (word :: more) = charsOf Text.isBlank * (spelled word * spaced more) :=
      mul_assoc _ _ _
    rw [hspaced, afterWords?]
    constructor
    · intro h
      split at h
      · rename_i hhead
        obtain ⟨behind, hbehind, hafter⟩ := Option.bind_eq_some_iff.1 h
        obtain ⟨u, rfl, hu⟩ := (ih hmore).1 hafter
        have hdrop := List.isPrefixOf?_eq_some_iff_append_eq.1 hbehind
        have hblank := List.all_eq_true.1 (List.all_takeWhile (p := Text.isBlank) (l := cs))
        have hne : cs.takeWhile Text.isBlank ≠ [] := by
          cases cs with
          | nil => cases hhead
          | cons d rest =>
            rw [List.takeWhile_cons_of_pos (by simpa using hhead)]
            exact List.cons_ne_nil _ _
        refine ⟨cs.takeWhile Text.isBlank ++ (word.toList ++ u), ?_, ?_⟩
        · rw [List.append_assoc, List.append_assoc, hdrop, List.takeWhile_append_dropWhile]
        · exact Language.append_mem_mul (mem_charsOf.2 ⟨hne, hblank⟩)
            (mem_spelled_mul.2 ⟨u, rfl, hu⟩)
      · cases h
    · rintro ⟨_, rfl, blanks, hblanks, behind, hbehind, rfl⟩
      obtain ⟨hne, hall⟩ := mem_charsOf.1 hblanks
      obtain ⟨u, rfl, hu⟩ := mem_spelled_mul.1 hbehind
      -- a word begins with a letter, so the blanks end where it begins
      have hdrop : (blanks ++ (word.toList ++ u) ++ rest).dropWhile Text.isBlank =
          word.toList ++ (u ++ rest) := by
        rw [List.append_assoc, List.append_assoc, List.dropWhile_append_of_pos hall, hword,
          List.cons_append, List.dropWhile_cons_of_neg (by simp [hc])]
      have hhead : (blanks ++ (word.toList ++ u) ++ rest).head?.any Text.isBlank = true := by
        cases blanks with
        | nil => exact absurd rfl hne
        | cons b blanks => simpa using hall b List.mem_cons_self
      rw [if_pos hhead, hdrop, List.isPrefixOf?_eq_some_iff_append_eq.2 rfl]
      exact (ih hmore).2 ⟨u, rfl, hu⟩

/-- An opening parenthesis follows, blanks before it aside. -/
theorem called_iff {rest : List Char} : (rest.dropWhile Text.isBlank).head? = some '(' ↔
    ∃ blanks more, rest = blanks ++ '(' :: more ∧ ∀ c ∈ blanks, Text.isBlank c = true := by
  constructor
  · intro h
    have hsplit := List.takeWhile_append_dropWhile (p := Text.isBlank) (l := rest)
    cases hdrop : rest.dropWhile Text.isBlank with
    | nil => rw [hdrop] at h; cases h
    | cons c more =>
      rw [hdrop] at h hsplit
      cases h
      exact ⟨_, more, hsplit.symm, List.all_eq_true.1 List.all_takeWhile⟩
  · rintro ⟨blanks, more, rfl, hall⟩
    rw [List.dropWhile_append_of_pos hall, List.dropWhile_cons_of_neg (by decide)]
    rfl

theorem read_phrase {kind : Terminal} {first : String} {more : List String}
    (hmore : ∀ word ∈ more, Firm word) (cs : List Char) :
    (phrasePattern kind first more).Read cs (phrase? first more cs) := by
  have hfits : ∀ {v w}, (phrasePattern kind first more).Fits v w → ∃ u, v = first.toList ++ u ∧
      afterWords? more (u ++ w) = some w ∧ (w.dropWhile Text.isBlank).head? = some '(' := by
    intro v w h
    obtain ⟨u, rfl, hu⟩ := mem_spelled_mul.1 h.text
    exact ⟨u, rfl, (afterWords?_eq_some hmore).2 ⟨u, rfl, hu⟩, called_iff.2 (h.ahead rfl)⟩
  constructor
  · intro n hn
    obtain ⟨rest, hrest, hn⟩ := Option.bind_eq_some_iff.1 hn
    obtain ⟨behind, hbehind, hafter⟩ := Option.bind_eq_some_iff.1 hrest
    have hcs := List.isPrefixOf?_eq_some_iff_append_eq.1 hbehind
    obtain ⟨u, rfl, hu⟩ := (afterWords?_eq_some hmore).1 hafter
    split at hn
    · rename_i hcalled
      cases hn
      refine ⟨first.toList ++ u, rest, by rw [List.append_assoc, hcs], ?_, .of_unique
        ⟨mem_spelled_mul.2 ⟨u, rfl, hu⟩, fun _ => called_iff.1 hcalled⟩ fun v' w' hcs' h => ?_⟩
      · rw [← hcs]
        simp only [List.length_append]
        omega
      · obtain ⟨u', rfl, hafter', -⟩ := hfits h
        rw [List.append_assoc, List.append_assoc] at hcs'
        rw [List.append_cancel_left hcs', hafter] at hafter'
        cases hafter'
        have hlength := congrArg List.length hcs'
        simp only [List.length_append] at hlength ⊢
        omega
    · cases hn
  · intro hn v w hcs h
    obtain ⟨u, rfl, hafter, hcalled⟩ := hfits h
    unfold phrase? at hn
    rw [hcs, List.append_assoc, List.isPrefixOf?_eq_some_iff_append_eq.2 rfl] at hn
    simp [hafter, hcalled] at hn

theorem phrases_firm : ∀ x ∈ phrases, ∀ word ∈ x.2.2, Firm word := by
  simp [phrases, Firm, Text.isBlank]

/-! ## Operators -/

theorem read_spelled (kind : Terminal) (s : String) (cs : List Char) :
    (plainPattern kind (spelled s)).Read cs
      (if s.toList.isPrefixOf cs then some s.toList.length else none) := by
  constructor
  · intro n hn
    split at hn
    · rename_i hprefix
      cases hn
      obtain ⟨w, rfl⟩ := List.isPrefixOf_iff_prefix.1 hprefix
      refine ⟨s.toList, w, rfl, rfl, .of_unique (.plain rfl) fun v' w' _ h => ?_⟩
      rw [h.text]
    · cases hn
  · intro hn v w hcs h
    split at hn
    · cases hn
    · rename_i hprefix
      obtain rfl := h.text
      exact hprefix (List.isPrefixOf_iff_prefix.2 ⟨w, hcs.symm⟩)

end Lexer

end Criterion

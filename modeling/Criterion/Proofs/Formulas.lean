import Criterion.Proofs.Literals

/-!
# Integer formulas and how they are written

Formulas of natural numbers, minus signs, sums, differences, products and powers, and the texts that they
are written as. The levels are those of sums (0), of products (1), of powers (2) and of operands (3): an
operator takes formulas of its own level on its left and tighter ones on its right, and a formula that is
too loose where it stands, and only such a formula, is put between parentheses.

* `Formula.value`: the integer that a formula stands for.
* `Formula.Spells`, `Formula.Spelled`: the texts of a formula, with blanks between its tokens.
* `Formula.spelled_text`: every formula has a text.
* `Tokenizes`: the tokens of a text in front of what may follow a number.
* `tokenizes_digits`, `tokenizes_negative`, `tokenizes_joined`, `tokenizes_parenthesized`: **the tokens of
  the parts of a formula.**
-/

namespace Criterion

open Lexer

/-! ## Formulas -/

/-- A natural number in decimal digits, not more than `digitLimit` of them. -/
structure Digits where
  text : List Char
  nonempty : text ≠ []
  ascii : ∀ c ∈ text, c.isDigit = true
  short : text.length ≤ digitLimit

/-- The number that digits stand for. -/
def Digits.value (d : Digits) : ℕ := Nat.ofDigitChars 10 d.text 0

/-- The operators between two formulas. -/
inductive Operation where
  | plus
  | minus
  | times

namespace Operation

def symbol : Operation → Char
  | .plus => '+'
  | .minus => '-'
  | .times => '*'

def apply : Operation → ℤ → ℤ → ℤ
  | .plus => (· + ·)
  | .minus => (· - ·)
  | .times => (· * ·)

/-- Sums and differences are looser than products. -/
def level : Operation → ℕ
  | .plus | .minus => 0
  | .times => 1

end Operation

/-- An integer formula. An exponent is a number up to 1024. -/
inductive Formula where
  | digits (d : Digits)
  | negative (f : Formula)
  | join (op : Operation) (f g : Formula)
  | power (f : Formula) (d : Digits) (small : d.value ≤ 1024)

namespace Formula

/-- The integer that a formula stands for. -/
def value : Formula → ℤ
  | .digits d => d.value
  | .negative f => -f.value
  | .join op f g => op.apply f.value g.value
  | .power f d _ => f.value ^ d.value

/-- The level of the operator that a formula is made with; numbers and minus signs are the tightest. -/
def level : Formula → ℕ
  | .digits _ | .negative _ => 3
  | .join op _ _ => op.level
  | .power .. => 2

end Formula

/-- Blanks, or nothing. -/
def Gap (cs : List Char) : Prop := ∀ c ∈ cs, isSpace c = true

namespace Formula

/-- The texts of a formula where formulas of a level are expected. -/
inductive Spells : ℕ → Formula → List Char → Prop where
  | digits {k : ℕ} {d : Digits} : Spells k (.digits d) d.text
  | negative {k : ℕ} {f : Formula} {gap cs : List Char} : Gap gap → Spells 3 f cs →
    Spells k (.negative f) ('-' :: (gap ++ cs))
  | join {k : ℕ} {op : Operation} {f g : Formula} {before after cs ds : List Char} : k ≤ op.level →
    Spells op.level f cs → Spells (op.level + 1) g ds → Gap before → Gap after →
      Spells k (.join op f g) (cs ++ (before ++ ([op.symbol] ++ (after ++ ds))))
  | power {k : ℕ} {f : Formula} {d : Digits} {small : d.value ≤ 1024} {before after cs : List Char} :
    k ≤ 2 → Spells 2 f cs → Gap before → Gap after →
      Spells k (.power f d small) (cs ++ (before ++ (['*', '*'] ++ (after ++ d.text))))
  | parenthesized {k : ℕ} {f : Formula} {before after cs : List Char} : f.level < k → Spells 0 f cs →
    Gap before → Gap after → Spells k f ('(' :: (before ++ (cs ++ (after ++ [')']))))

/-- A text that a formula is written as, with blanks around it. -/
def Spelled (f : Formula) (source : String) : Prop :=
  ∃ before cs after, source.toList = before ++ (cs ++ after) ∧ f.Spells 0 cs ∧ Gap before ∧ Gap after

/-- A text, between parentheses if a looser one may not stand there. -/
def enclosed (loose : Bool) (cs : List Char) : List Char := if loose then '(' :: (cs ++ [')']) else cs

/-- The text of a formula without blanks, where formulas of a level are expected. -/
def textAt : ℕ → Formula → List Char
  | _, .digits d => d.text
  | _, .negative f => '-' :: textAt 3 f
  | k, .join op f g =>
    enclosed (op.level < k) (textAt op.level f ++ ([op.symbol] ++ textAt (op.level + 1) g))
  | k, .power f d _ => enclosed (2 < k) (textAt 2 f ++ (['*', '*'] ++ d.text))

/-- The text of a formula without blanks. -/
def text (f : Formula) : String := String.ofList (f.textAt 0)

theorem gap_nil : Gap [] := List.forall_mem_nil _

theorem spells_enclosed {k : ℕ} {f : Formula} {cs : List Char} (h : ∀ j ≤ f.level, f.Spells j cs) :
    f.Spells k (enclosed (f.level < k) cs) := by
  unfold enclosed
  split
  · rename_i hloose
    exact .parenthesized (of_decide_eq_true hloose) (h 0 (Nat.zero_le _)) gap_nil gap_nil
  · rename_i htight
    exact h k (Nat.not_lt.1 fun hloose => htight (decide_eq_true hloose))

theorem spells_textAt (k : ℕ) (f : Formula) : f.Spells k (f.textAt k) := by
  induction f generalizing k with
  | digits d => exact .digits
  | negative f ih => exact .negative gap_nil (ih 3)
  | join op f g ihf ihg =>
    exact spells_enclosed fun j hj => .join hj (ihf _) (ihg _) gap_nil gap_nil
  | power f d small ih => exact spells_enclosed fun j hj => .power hj (ih 2) gap_nil gap_nil

/-- Every formula has a text. -/
theorem spelled_text (f : Formula) : f.Spelled f.text := by
  refine ⟨[], f.textAt 0, [], ?_, f.spells_textAt 0, gap_nil, gap_nil⟩
  rw [text, String.toList_ofList, List.append_nil, List.nil_append]

end Formula

/-! ## Blanks -/

section Gaps

variable {unary : Bool} {position : ℕ} {gap rest : List Char} {ls : List Lexeme}

theorem tokens_run_iff {cs : List Char} : Tokens unary position cs ls ↔
    Tokens unary (position + (cs.takeWhile isSpace).length) (cs.dropWhile isSpace) ls := by
  by_cases hrun : cs.takeWhile isSpace = []
  · have hdrop : cs.dropWhile isSpace = cs := by
      have hsplit := List.takeWhile_append_dropWhile (p := isSpace) (l := cs)
      rwa [hrun] at hsplit
    rw [hrun, hdrop]
    rfl
  · have hscan : Scans unary (cs.takeWhile isSpace) (cs.dropWhile isSpace) .blank := by
      refine scans_of_scan ?_
      rw [List.takeWhile_append_dropWhile]
      cases cs with
      | nil => exact absurd rfl hrun
      | cons c cs =>
        have hc : isSpace c = true := by
          by_contra hc
          exact hrun (List.takeWhile_cons_of_neg hc)
        rcases isSpace_cases hc with rfl | rfl | rfl | rfl | rfl <;> rfl
    have htokens : Tokens unary position (cs.takeWhile isSpace ++ cs.dropWhile isSpace) ls ↔ _ :=
      tokens_append_iff hscan
    rwa [List.takeWhile_append_dropWhile, if_pos (by rfl)] at htokens

/-- Blanks are left out. -/
theorem tokens_gap (hgap : Gap gap) (h : Tokens unary (position + gap.length) rest ls) :
    Tokens unary position (gap ++ rest) ls := by
  induction gap generalizing position with
  | nil => exact h
  | cons c gap ih =>
    obtain ⟨hc, hgap⟩ := List.forall_mem_cons.1 hgap
    have hbehind : Tokens unary (position + 1) (gap ++ rest) ls := by
      refine ih hgap ?_
      rwa [List.length_cons, Nat.add_comm gap.length, ← Nat.add_assoc] at h
    -- the blank and those behind it are one run
    rw [tokens_run_iff] at hbehind
    rw [List.cons_append, tokens_run_iff, List.takeWhile_cons_of_pos hc, List.dropWhile_cons_of_pos hc,
      List.length_cons, Nat.add_comm (List.length _), ← Nat.add_assoc]
    exact hbehind

/-- What comes first behind blanks is a blank, or what comes first without them. -/
theorem head_gap {P : Char → Prop} (hgap : Gap gap) (hP : ∀ c, isSpace c = true → P c)
    (h : ∀ c ∈ rest.head?, P c) : ∀ c ∈ (gap ++ rest).head?, P c := by
  cases gap with
  | nil => exact h
  | cons c gap =>
    rintro d ⟨⟩
    exact hP c (hgap c List.mem_cons_self)

theorem numberless_gap (hgap : Gap gap) (h : Numberless rest) : Numberless (gap ++ rest) := by
  refine head_gap hgap (fun c hc => ?_) h
  rcases isSpace_cases hc with rfl | rfl | rfl | rfl | rfl <;> exact ⟨rfl, by decide⟩

end Gaps

/-! ## The tokens of formulas -/

/-- In front of all that may follow a number, a text has tokens of a certain form. Nothing in front of it
goes on with it. -/
structure Tokenizes (unary : Bool) (cs : List Char) (I : List Lexeme → Prop) : Prop where
  starts : ∃ c tail, cs = c :: tail ∧ c ≠ '*'
  tokens : ∀ {position : ℕ} {rest : List Char} {ls : List Lexeme}, Numberless rest →
    Tokens unary (position + cs.length) rest ls →
      ∃ w, Tokens unary position (cs ++ rest) (w ++ ls) ∧ I w

section Formulas

variable {unary : Bool} {gap before after cs ds : List Char} {I J K : List Lexeme → Prop}

/-- Blanks in front of a text are left out. -/
theorem Tokenizes.behind_gap (h : Tokenizes unary cs I) (hgap : Gap gap) {position : ℕ} {rest : List Char}
    {ls : List Lexeme} (hrest : Numberless rest)
    (htokens : Tokens unary (position + gap.length + cs.length) rest ls) :
    ∃ w, Tokens unary position (gap ++ (cs ++ rest)) (w ++ ls) ∧ I w := by
  obtain ⟨w, hw, hI⟩ := h.tokens hrest htokens
  exact ⟨w, tokens_gap hgap hw, hI⟩

theorem tokenizes_digits (d : Digits)
    (hI : ∀ start stop, I [⟨.number, String.ofList d.text, start, stop⟩]) : Tokenizes unary d.text I := by
  refine ⟨?_, fun {_ rest _} hrest htokens => ?_⟩
  · cases htext : d.text with
    | nil => exact absurd htext d.nonempty
    | cons c tail =>
      refine ⟨c, tail, rfl, ?_⟩
      rintro rfl
      exact absurd (d.ascii '*' (by rw [htext]; exact List.mem_cons_self)) (by decide)
  · have hscans : Scans unary d.text rest .number :=
      scans_of_scan (scan_number d.ascii d.nonempty hrest)
    exact ⟨_, .token hscans rfl htokens, hI _ _⟩

theorem tokenizes_negative (hgap : Gap gap) (h : Tokenizes unary cs I)
    (hJ : ∀ l w, l.kind = .minus → l.text = "-" → I w → J (l :: w)) :
    Tokenizes unary ('-' :: (gap ++ cs)) J := by
  refine ⟨⟨'-', _, rfl, by decide⟩, fun {position rest ls} hrest htokens => ?_⟩
  have hlength : position + ('-' :: (gap ++ cs)).length = position + 1 + gap.length + cs.length := by
    rw [List.length_cons, List.length_append]
    omega
  rw [hlength] at htokens
  obtain ⟨w, hw, hI⟩ := h.behind_gap hgap hrest htokens
  obtain ⟨l, hl, htext, hminus⟩ := tokens_symbol (t := .minus) (c := '-') rfl rfl hw
  refine ⟨l :: w, ?_, hJ l w hl htext hI⟩
  rw [List.cons_append, List.append_assoc]
  exact hminus

/-- Two texts with an operator between them. A star has to end there. -/
theorem tokenizes_joined {symbol : List Char} {t : Terminal} (hcs : Tokenizes unary cs I)
    (hds : Tokenizes unary ds J) (hbefore : Gap before) (hafter : Gap after) (ht : t.isTrivia = false)
    (hsymbol : ∀ rest, Numberless (symbol ++ rest))
    (hscan : ∀ rest, (∀ c ∈ rest.head?, c ≠ '*') →
      scan? unary (symbol ++ rest) = some (t, symbol.length))
    (hK : ∀ u l w, l.kind = t → l.text = String.ofList symbol → I u → J w → K (u ++ l :: w)) :
    Tokenizes unary (cs ++ (before ++ (symbol ++ (after ++ ds)))) K := by
  obtain ⟨c, tail, rfl, hc⟩ := hcs.starts
  refine ⟨⟨c, _, List.cons_append, hc⟩, fun {position rest ls} hrest htokens => ?_⟩
  have hlength : position + (c :: tail ++ (before ++ (symbol ++ (after ++ ds)))).length =
      position + (c :: tail).length + before.length + symbol.length + after.length + ds.length := by
    simp only [List.length_append]
    omega
  rw [hlength] at htokens
  -- from the end: what an operator is, and where a number ends, is told by what follows
  obtain ⟨w, hw, hJ⟩ := hds.behind_gap hafter hrest htokens
  have hstarless : ∀ b ∈ (after ++ (ds ++ rest)).head?, b ≠ '*' := by
    refine head_gap hafter ?_ fun b hb => ?_
    · rintro b hb rfl
      exact absurd hb (by decide)
    · obtain ⟨d, tail', rfl, hd⟩ := hds.starts
      cases hb
      exact hd
  obtain ⟨l, hl, htext, hop⟩ := tokens_scanned (scans_of_scan (hscan _ hstarless)) ht hw
  obtain ⟨u, hu, hI⟩ := hcs.tokens (numberless_gap hbefore (hsymbol _)) (tokens_gap hbefore hop)
  refine ⟨u ++ l :: w, ?_, hK u l w hl htext hI hJ⟩
  simpa only [List.append_assoc, List.cons_append] using hu

theorem tokenizes_parenthesized (hbefore : Gap before) (hafter : Gap after) (h : Tokenizes unary cs I)
    (hJ : ∀ l w m, l.kind = .leftParen → m.kind = .rightParen → I w → J (l :: (w ++ [m]))) :
    Tokenizes unary ('(' :: (before ++ (cs ++ (after ++ [')'])))) J := by
  refine ⟨⟨'(', _, rfl, by decide⟩, fun {position rest ls} hrest htokens => ?_⟩
  have hlength : position + ('(' :: (before ++ (cs ++ (after ++ [')'])))).length =
      position + 1 + before.length + cs.length + after.length + 1 := by
    simp only [List.length_append, List.length_cons, List.length_nil]
    omega
  rw [hlength] at htokens
  obtain ⟨m, hm, -, hclosing⟩ := tokens_symbol (t := .rightParen) (c := ')') rfl rfl htokens
  have hend : Numberless (')' :: rest) := by
    rintro c ⟨⟩
    decide
  obtain ⟨w, hw, hI⟩ := h.behind_gap hbefore (numberless_gap hafter hend) (tokens_gap hafter hclosing)
  obtain ⟨l, hl, -, hopening⟩ := tokens_symbol (t := .leftParen) (c := '(') rfl rfl hw
  refine ⟨l :: (w ++ [m]), ?_, hJ l w m hl hm hI⟩
  simpa only [List.append_assoc, List.cons_append, List.nil_append] using hopening

/-- A star is a product if no other star follows. -/
theorem scan_star {rest : List Char} (h : ∀ c ∈ rest.head?, c ≠ '*') :
    scan? unary ('*' :: rest) = some (.star, 1) := by
  cases rest with
  | nil => rfl
  | cons c rest =>
    have hpower : "**".toList.isPrefixOf ('*' :: c :: rest) = false := by
      have hc : ('*' == c) = false := beq_eq_false_iff_ne.2 (h c rfl).symm
      change ('*' == '*' && ('*' == c && true)) = false
      rw [hc]
      rfl
    change symbol? ('*' :: c :: rest) = _
    unfold symbol? symbols
    rw [List.findSome?_cons]
    dsimp only
    rw [hpower]
    rfl

end Formulas

end Criterion

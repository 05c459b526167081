import Criterion.Proofs.Paths
import Criterion.Proofs.Precedence

/-!
# Operands of one token

A name, or a number in digits, is one token where blanks and an operator follow, and it is read as one operand
there. In larger sources it stands for any operand whose value is known.

* `Operand`: the texts of such operands, and what they are built into.
* `endsName_behind_gap`: **a name ends before an operator**, with or without blanks between them.
* `Operand.tokens`: the token of an operand.
* `Operand.reads`: the token is read as the operand.
-/

namespace Criterion

open Lexer

/-- The text of a name or of a number in digits, and the expression that it stands for. -/
inductive Operand : List Char → Expr → Prop where
  | name {name : String} : IsName name → Operand name.toList (.name name)
  | digits (d : Digits) : Operand d.text (.number (.whole d.value))

/-! ## Tokens -/

/-- The first letters of the further words of builtin names. -/
def furtherInitials : List Char := ['l', 'c', 'w', 'v', 'o', 'a']

theorem further_initials : ∀ x ∈ phrases, ∃ word ∈ x.2.2.head?, ∃ c ∈ word.toList.head?, c ∈ furtherInitials := by
  have hall : phrases.all (fun x => x.2.2.head?.any fun word => word.toList.head?.any furtherInitials.contains) = true :=
    rfl
  intro x hx
  obtain ⟨word, hword, hinitial⟩ := (Option.any_eq_true _ _).1 (List.all_eq_true.1 hall x hx)
  obtain ⟨c, hc, hmem⟩ := (Option.any_eq_true _ _).1 hinitial
  exact ⟨word, hword, c, hc, List.contains_iff_mem.1 hmem⟩

/-- **What ends a name**: no character of a word stands behind it, nor blanks and a further word of a builtin
name. -/
theorem endsName_behind_gap {gap rest : List Char} (hgap : Gap gap)
    (happart : gap = [] → ∀ c ∈ rest.head?, isWordPart c = false)
    (hrest : ∀ c ∈ rest.head?, Text.isBlank c = false ∧ c ∉ furtherInitials) : EndsName (gap ++ rest) := by
  have hblank : ∀ c, isSpace c = true → Text.isBlank c = true ∧ isWordPart c = false := by
    intro c hc
    rcases isSpace_cases hc with rfl | rfl | rfl | rfl | rfl <;> decide
  refine ⟨?_, fun x hx => ?_⟩
  · cases gap with
    | nil => exact happart rfl
    | cons c gap =>
      rintro d ⟨⟩
      exact (hblank c (hgap c List.mem_cons_self)).2
  -- behind the blanks a further word would begin with another letter
  have hdrop : (gap ++ rest).dropWhile Text.isBlank = rest := by
    have hall : ∀ c ∈ gap, Text.isBlank c = true := fun c hc => (hblank c (hgap c hc)).1
    rw [List.dropWhile_append_of_pos hall]
    cases rest with
    | nil => rfl
    | cons c rest => rw [List.dropWhile_cons_of_neg (by simp [(hrest c rfl).1])]
  obtain ⟨word, hword, c, hc, hinitial⟩ := further_initials x hx
  obtain ⟨words, hwords⟩ := List.head?_eq_some_iff.1 hword
  obtain ⟨letters, hletters⟩ := List.head?_eq_some_iff.1 hc
  have hmissed : word.toList.isPrefixOf? rest = none := by
    rw [hletters]
    cases rest with
    | nil => rfl
    | cons d rest =>
      have hne : (c == d) = false := by
        refine beq_eq_false_iff_ne.2 ?_
        rintro rfl
        exact (hrest c rfl).2 hinitial
      rw [List.isPrefixOf?, hne]
      rfl
  rw [hwords, afterWords?, hdrop, hmissed]
  split <;> rfl

/-- The token of an operand. -/
def IsOperandToken (e : Expr) (l : Lexeme) : Prop :=
  (l.kind = .identifier ∧ e = .name l.text) ∨ (l.kind = .number ∧ l.token.assemble = .ok (.expr e))

section Tokens

variable {cs rest : List Char} {e : Expr} {ls : List Lexeme} {position : ℕ}

/-- **The token of an operand.** -/
theorem Operand.tokens (h : Operand cs e) (hname : EndsName rest) (hnumber : Numberless rest)
    (hrest : Tokens false (position + cs.length) rest ls) :
    ∃ l, Tokens false position (cs ++ rest) (l :: ls) ∧ IsOperandToken e l := by
  cases h with
  | @name name hword =>
    obtain ⟨l, hl, htext, htokens⟩ := tokens_scanned (hword.scans_before hname) rfl hrest
    rw [String.ofList_toList] at htext
    exact ⟨l, htokens, .inl ⟨hl, by rw [htext]⟩⟩
  | digits d =>
    have hscans : Scans false d.text rest .number := scans_of_scan (scan_number d.ascii d.nonempty hnumber)
    refine ⟨⟨.number, String.ofList d.text, position, position + d.text.length⟩, .token hscans rfl hrest, ?_⟩
    refine .inr ⟨rfl, ?_⟩
    change (numberLiteral (String.ofList d.text)).map Artifact.expr = _
    rw [numberLiteral_ascii d.ascii d.nonempty d.short]
    rfl

theorem IsOperandToken.kind {l : Lexeme} (h : IsOperandToken e l) :
    l.kind ∈ [Terminal.identifier, .number] ∧ l.kind ≠ .dots := by
  rcases h with ⟨hl, -⟩ | ⟨hl, -⟩ <;> rw [hl] <;> decide

end Tokens

/-! ## Readings -/

section Readings

open Reader Grammar

variable {e : Expr} {c : Cursor} {l : Lexeme} {rest : List Lexeme}

/-- **The token of an operand is read as the operand** before an operator, or at the end. -/
theorem IsOperandToken.reads (h : IsOperandToken e l) (hc : c.rest = l :: rest) (hu : c.Undotted)
    (hrest : Cursor.HeadIn ⟨l.stop, rest⟩ (followers 3)) (n : ℕ) :
    ∃ t, (unaryLevel (expression n)).Sole c t ⟨l.stop, rest⟩ ∧ t.Builds e := by
  rcases h with ⟨hl, rfl⟩ | ⟨hl, hassemble⟩
  · obtain ⟨span, hspan⟩ := sole_name_operand (yields_expression n) hc hl (avoids hrest (by decide))
    refine ⟨_, hspan, ?_⟩
    have hone : AreNames [l.text] [.token l.token] := ⟨[l], rfl, List.forall_mem_singleton.2 hl, rfl⟩
    have hbuilds := builds_name hone span
    rwa [show dotted l.text [] = l.text by simp [dotted]] at hbuilds
  · have hprimary := sole_primary_literal (yields_expression n) hu hc (by rw [hl]; decide)
    refine ⟨_, sole_operand hprimary (Cursor.headIn_of_rest hc (by rw [hl]; decide)) hrest, fun source => ?_⟩
    have hplain : l.token.kind.isTrivia = false := by
      rw [show l.token.kind = .number from hl]
      rfl
    rw [artifacts_token hplain, hassemble]
    rfl

end Readings

end Criterion

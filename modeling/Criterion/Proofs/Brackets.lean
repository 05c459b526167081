import Criterion.Proofs.Soundness
import Mathlib.Data.Nat.Bits

/-!
# Brackets come in pairs

The brackets of intervals open with a closing one and close with an opening one, so brackets cannot be
matched by their form. But each rule has an even number of them, and so has what derives from it.

* `Symbol.odd?`: whether a symbol stands for an odd number of brackets, if that is told.
* `Nonterminal.Reads.brackets_even`: **what derives from a rule has an even number of brackets.**
-/

namespace Criterion

/-- Parentheses and square brackets. -/
def Terminal.isBracket : Terminal → Bool
  | .leftParen | .rightParen | .leftBracket | .rightBracket => true
  | _ => false

/-- Whether the rule is one end of an interval. -/
def Nonterminal.isEnd : Nonterminal → Bool
  | .intervalStart | .intervalEnd => true
  | _ => false

mutual

/-- Whether a symbol stands for an odd number of brackets, if that is told. -/
def Symbol.odd? : Symbol → Option Bool
  | .named kinds | .text kinds =>
    if kinds.all Terminal.isBracket then some true
    else if kinds.any Terminal.isBracket then none
    else some false
  | .rule n => some n.isEnd
  | .many body | .optional body => if Symbol.odds? body = some false then some false else none

/-- Whether some symbols stand for an odd number of brackets. -/
def Symbol.odds? : List Symbol → Option Bool
  | [] => some false
  | s :: rest =>
    match Symbol.odd? s, Symbol.odds? rest with
    | some a, some b => some (xor a b)
    | _, _ => none

end

/-- The number of brackets among some tokens. -/
def brackets (w : List Lexeme) : ℕ := w.countP (·.kind.isBracket)

section Brackets

variable {keeps b : Bool} {body rest : List Symbol} {s : Symbol} {n : Nonterminal} {u w : List Lexeme}
  {ts : List Tree}

theorem productions_odd (n : Nonterminal) : ∀ p ∈ n.productions, Symbol.odds? p.body = some n.isEnd := by
  cases n <;> decide

theorem odds_cons (h : Symbol.odds? (s :: rest) = some b) :
    ∃ x y, s.odd? = some x ∧ Symbol.odds? rest = some y ∧ xor x y = b := by
  rw [Symbol.odds?] at h
  split at h
  · rename_i x y hx hy
    exact ⟨x, y, hx, hy, Option.some.inj h⟩
  · cases h

theorem odds_append {x y : Bool} (hx : Symbol.odds? body = some x) (hy : Symbol.odds? rest = some y) :
    Symbol.odds? (body ++ rest) = some (xor x y) := by
  induction body generalizing x with
  | nil =>
    cases hx
    rw [List.nil_append, hy, Bool.false_xor]
  | cons s body ih =>
    obtain ⟨a, c, ha, hc, rfl⟩ := odds_cons hx
    rw [List.cons_append, Symbol.odds?, ha, ih hc, Bool.xor_assoc]

theorem brackets_append (u w : List Lexeme) :
    (brackets (u ++ w)).bodd = xor (brackets u).bodd (brackets w).bodd := by
  unfold brackets
  rw [List.countP_append, Nat.bodd_add]

/-- A token of a symbol is a bracket if the symbol stands for one. -/
theorem odd_token {kinds : List Terminal} {l : Lexeme} {x : Bool} (hl : l.kind ∈ kinds)
    (hx : (if kinds.all Terminal.isBracket then some true
      else if kinds.any Terminal.isBracket then none else some false) = some x) :
    (brackets [l]).bodd = x := by
  have hbracket : l.kind.isBracket = x := by
    split at hx
    · rename_i hall
      cases hx
      exact List.all_eq_true.1 hall _ hl
    · split at hx
      · cases hx
      · rename_i hnone
        cases hx
        by_contra hodd
        exact hnone (List.any_eq_true.2 ⟨_, hl, Bool.eq_true_of_not_eq_false hodd⟩)
  subst hbracket
  unfold brackets
  cases h : l.kind.isBracket <;> simp [h]

/-- Brackets are even or odd in number as the symbols tell. -/
theorem Derives.brackets_odd (h : Derives keeps body w ts) :
    ∀ {b : Bool}, Symbol.odds? body = some b → (brackets w).bodd = b := by
  have hcons : ∀ {l : Lexeme} {w : List Lexeme} {kinds : List Terminal} {rest : List Symbol} {s : Symbol},
      s.odd? = (if kinds.all Terminal.isBracket then some true
        else if kinds.any Terminal.isBracket then none else some false) → l.kind ∈ kinds →
      (∀ {b : Bool}, Symbol.odds? rest = some b → (brackets w).bodd = b) →
      ∀ {b : Bool}, Symbol.odds? (s :: rest) = some b → (brackets (l :: w)).bodd = b := by
    intro l w kinds rest s hs hl ih b hb
    obtain ⟨x, y, hx, hy, rfl⟩ := odds_cons hb
    rw [← List.singleton_append, brackets_append, odd_token hl (hs ▸ hx), ih hy]
  have hinner : ∀ {body : List Symbol} {x : Bool},
      (if Symbol.odds? body = some false then some false else none) = some x →
        Symbol.odds? body = some false ∧ x = false := by
    intro body x hx
    split at hx
    · rename_i hbody
      exact ⟨hbody, (Option.some.inj hx).symm⟩
    · cases hx
  induction h with
  | nil =>
    intro b hb
    exact Option.some.inj hb
  | named hl _ ih => exact hcons rfl hl ih
  | kept hl _ ih => exact hcons rfl hl ih
  | dropped hl _ ih => exact hcons rfl hl ih
  | @rule _ n p _ _ _ _ _ hp _ _ ihbody ih =>
    intro b hb
    obtain ⟨x, y, hx, hy, rfl⟩ := odds_cons hb
    rw [brackets_append, ihbody (productions_odd n p hp), ih hy, Option.some.inj hx]
  | absent _ ih =>
    intro b hb
    obtain ⟨x, y, hx, hy, rfl⟩ := odds_cons hb
    obtain ⟨-, rfl⟩ := hinner hx
    rw [ih hy, Bool.false_xor]
  | present _ ih =>
    intro b hb
    obtain ⟨x, y, hx, hy, rfl⟩ := odds_cons hb
    obtain ⟨hbody, rfl⟩ := hinner hx
    exact ih (odds_append hbody hy)
  | done _ ih =>
    intro b hb
    obtain ⟨x, y, hx, hy, rfl⟩ := odds_cons hb
    obtain ⟨-, rfl⟩ := hinner hx
    rw [ih hy, Bool.false_xor]
  | again _ ih =>
    intro b hb
    obtain ⟨x, y, hx, hy, rfl⟩ := odds_cons hb
    obtain ⟨hbody, rfl⟩ := hinner hx
    refine ih ?_
    have hmany := odds_append hbody hb
    rwa [Bool.false_xor] at hmany

/-- **What derives from a rule has an even number of brackets**, unless the rule is one end of an interval. -/
theorem Nonterminal.Reads.brackets_even (h : n.Reads w ts) (hn : n.isEnd = false) :
    (brackets w).bodd = false := by
  obtain ⟨p, hp, us, hd, -⟩ := h
  rw [hd.brackets_odd (productions_odd n p hp), hn]

end Brackets

end Criterion

import Criterion.Proofs.Operands
import Criterion.Proofs.Rounding

/-!
# Powers of integers

A power of two integers is computed with integers or not at all. Beyond the largest exponent a base of two or more
is tried with fractions, and there the power always overflows: neither of the two gets below its power of two by
rounding. So the power is exact or null, and never a fraction.

* `exactPower`: what a power is.
* `powerOverflows_of_le`: where the exact power is outside of the format.
* `realPower_eq_none`: **beyond the limit no power is a fraction.**
* `IsPower`, `parse_power`: the sources of a power, in both spellings of its operator.
* `integer_power_exact_or_null`: **integer powers are exact or null**, as values, in expressions and in sources.
-/

namespace Criterion

/-- The exact power where the base is at most one in magnitude or the exponent at most 1024, and null elsewhere. -/
def exactPower (a b : ℤ) : Value := if a.natAbs ≤ 1 ∨ b ≤ 1024 then .whole (a ^ b.toNat) else .null

/-! ## Numbers -/

section Numbers

variable {a b : ℤ}

/-- The whole part of an exponent that is not less than the range is the range. -/
theorem wholeUpTo_of_le {v : Magnitude} {k : ℕ} (h : k * unitsPerOne ≤ v.units) :
    Binary64.wholeUpTo k (.finite false v) = k :=
  min_eq_right ((Nat.le_div_iff_mul_le unitsPerOne_pos).2 h)

/-- **With a base of two or more and an exponent in whose range no number is, the exact power overflows.** -/
theorem powerOverflows_of_le (s : Bool) {u v : Magnitude} (hbase : 2 * unitsPerOne ≤ u.units)
    (hexponent : Binary64.rangeBits * unitsPerOne ≤ v.units) :
    Binary64.powerOverflows (.finite s u) (.finite false v) = true := by
  have hpower : ∀ k, Nat.pow 2 k * Nat.pow unitsPerOne k ≤ Nat.pow u.units k := by
    intro k
    have hmul : Nat.pow (2 * unitsPerOne) k = Nat.pow 2 k * Nat.pow unitsPerOne k := Nat.mul_pow _ _ k
    rw [← hmul]
    exact Nat.pow_le_pow_left hbase k
  unfold Binary64.powerOverflows
  dsimp only
  rw [wholeUpTo_of_le hexponent, decide_eq_true_iff]
  exact hpower Binary64.rangeBits

/-- So there is no such power. -/
theorem pow_eq_none (s : Bool) {u v : Magnitude} (hbase : 2 * unitsPerOne ≤ u.units)
    (hexponent : Binary64.rangeBits * unitsPerOne ≤ v.units) :
    (Binary64.finite s u).pow? (.finite false v) = none := by
  rw [Binary64.pow?, if_pos (powerOverflows_of_le s hbase hexponent)]

/-- An integer that is converted is finite. -/
theorem eq_finite_of_toReal {i : ℤ} {x : Binary64} (h : (Number.whole i).toReal = .ok x) :
    Binary64.ofInt i = x ∧ ∃ s u, x = .finite s u := by
  unfold Number.toReal at h
  dsimp only at h
  split at h
  · rename_i hfinite
    obtain rfl := Except.ok.inj h
    refine ⟨rfl, ?_⟩
    cases hreal : Binary64.ofInt i with
    | finite s u => exact ⟨s, u, rfl⟩
    | _ =>
      rw [hreal] at hfinite
      cases hfinite
  · cases h

theorem realPower_none {m n : Number} (h : ∀ x y, m.toReal = .ok x → n.toReal = .ok y → x.pow? y = none) :
    Number.pow?.realPower m n = none := by
  unfold Number.pow?.realPower
  split
  · rename_i x y hx hy
    rw [h x y hx hy]
    rfl
  · rfl

/-- **Beyond the limit no power is a fraction**: the operands are too large to convert, or the power overflows. -/
theorem realPower_eq_none (ha : 2 ≤ a.natAbs) (hb : 1024 ≤ b) :
    Number.pow?.realPower (.whole a) (.whole b) = none := by
  refine realPower_none fun x y hx hy => ?_
  obtain ⟨hofa, s, u, rfl⟩ := eq_finite_of_toReal hx
  obtain ⟨hofb, t, v, rfl⟩ := eq_finite_of_toReal hy
  obtain rfl : t = false := by
    rw [Binary64.sign_ofInt hofb, decide_eq_false_iff_not]
    omega
  have hmagnitude : 1024 ≤ b.natAbs := by omega
  have hbase := Binary64.le_ofInt (k := 1) (n := 2) rfl ha hofa
  have hexponent := Binary64.le_ofInt (k := 10) (n := Binary64.rangeBits) rfl hmagnitude hofb
  exact pow_eq_none s hbase hexponent

/-- A power is that of the integers, up to the limit. -/
theorem pow_eq (hb : 0 ≤ b) : Number.pow? (.whole a) (.whole b) =
    if a.natAbs ≤ 1 ∨ b ≤ 1024 then some (.whole (a ^ b.toNat)) else none := by
  rw [Number.pow?, Number.powerLimit]
  by_cases hsmall : a.natAbs ≤ 1 ∨ b ≤ 1024
  · rw [if_pos ⟨hb, hsmall⟩, if_pos hsmall, wholePower_eq]
  · rw [if_neg fun h => hsmall h.2, if_neg hsmall]
    exact realPower_eq_none (by omega) (by omega)

/-- **A power of integers is exact or null.** -/
theorem arithmetic_power_eq (hb : 0 ≤ b) :
    Value.arithmetic .power (.whole a) (.whole b) = exactPower a b := by
  change Value.ofOption ((Option.filter Number.isFinite (Number.pow? (.whole a) (.whole b))).map
    Value.number) = _
  rw [pow_eq hb, exactPower]
  split_ifs <;> rfl

theorem exactPower_ne_real (a b : ℤ) (x : Binary64) : exactPower a b ≠ .number (.real x) := by
  unfold exactPower
  split_ifs
  · exact fun h => Number.noConfusion (Value.number.inj h)
  · exact Value.noConfusion

end Numbers

/-! ## Sources -/

/-- The spellings of the operator. -/
def powerSymbols : List (List Char) := [['*', '*'], ['^']]

/-- Two operands with the operator of powers between them, and with blanks. -/
def IsPower (source : String) (e f : Expr) : Prop :=
  ∃ before cs gap symbol gap' ds after,
    source.toList = before ++ (cs ++ (gap ++ (symbol ++ (gap' ++ (ds ++ after))))) ∧ symbol ∈ powerSymbols ∧
      Operand cs e ∧ Operand ds f ∧ Gap before ∧ Gap gap ∧ Gap gap' ∧ Gap after

section Sources

open Lexer Reader Grammar

variable {source : String} {e f : Expr}

/-- The symbols of the operator are its tokens. -/
theorem tokens_power {symbol rest : List Char} (h : symbol ∈ powerSymbols) {position : ℕ} {ls : List Lexeme}
    (hrest : Tokens false (position + symbol.length) rest ls) : ∃ l : Lexeme,
      Tokens false position (symbol ++ rest) (l :: ls) ∧ l.kind = .power ∧
        l.token.assemble = .ok (.arithmetic .power) := by
  have hscan : scan? false (symbol ++ rest) = some (.power, symbol.length) := by
    rcases List.mem_cons.1 h with rfl | h
    · rfl
    · rw [List.mem_singleton.1 h]
      rfl
  refine ⟨_, .token (scans_of_scan hscan) rfl hrest, rfl, ?_⟩
  rcases List.mem_cons.1 h with rfl | h
  · rfl
  · obtain rfl := List.mem_singleton.1 h
    rfl

/-- Nothing goes on with a name or a number where blanks and the operator stand. -/
theorem ends_before_power {gap symbol rest : List Char} (hgap : Gap gap) (h : symbol ∈ powerSymbols) :
    EndsName (gap ++ (symbol ++ rest)) ∧ Numberless (gap ++ (symbol ++ rest)) := by
  have hhead : ∀ c ∈ (symbol ++ rest).head?, c = '*' ∨ c = '^' := by
    intro c hc
    rcases List.mem_cons.1 h with rfl | h
    · exact .inl (Option.some.inj hc).symm
    · obtain rfl := List.mem_singleton.1 h
      exact .inr (Option.some.inj hc).symm
  refine ⟨endsName_behind_gap hgap (fun _ c hc => ?_) fun c hc => ?_, numberless_gap hgap fun c hc => ?_⟩ <;>
    rcases hhead c hc with rfl | rfl <;> decide

/-- Nothing goes on with them at the end of a source. -/
theorem ends_at_end {gap : List Char} (hgap : Gap gap) : EndsName gap ∧ Numberless gap := by
  have hnone : ∀ {P : Char → Prop}, ∀ c ∈ ([] : List Char).head?, P c :=
    fun c hc => absurd hc (Option.not_mem_none c)
  have hend := endsName_behind_gap hgap (fun _ => hnone) hnone
  have hnumberless : Numberless [] := hnone
  have hnumber := numberless_gap hgap hnumberless
  rw [List.append_nil] at hend hnumber
  exact ⟨hend, hnumber⟩

/-- The tokens of a power. -/
theorem IsPower.tokens (h : IsPower source e f) : ∃ l k m : Lexeme, Tokens false 0 source.toList [l, k, m] ∧
    IsOperandToken e l ∧ IsOperandToken f m ∧ k.kind = .power ∧ k.token.assemble = .ok (.arithmetic .power) := by
  obtain ⟨before, cs, gap, symbol, gap', ds, after, htext, hsymbol, he, hf, hbefore, hgap, hgap', hafter⟩ := h
  obtain ⟨hname, hnumber⟩ := ends_at_end hafter
  -- from the end on, since what follows tells where a token ends
  have hend : ∀ position, Tokens false position after [] := by
    intro position
    rw [← List.append_nil after]
    exact tokens_gap hafter .done
  obtain ⟨m, hm, hright⟩ := hf.tokens hname hnumber
    (hend (0 + before.length + cs.length + gap.length + symbol.length + gap'.length + ds.length))
  obtain ⟨k, hk, hkind, hop⟩ := tokens_power hsymbol (tokens_gap hgap' hm)
  obtain ⟨hname, hnumber⟩ : EndsName (gap ++ (symbol ++ (gap' ++ (ds ++ after)))) ∧
      Numberless (gap ++ (symbol ++ (gap' ++ (ds ++ after)))) := ends_before_power hgap hsymbol
  obtain ⟨l, hl, hleft⟩ := he.tokens hname hnumber (tokens_gap hgap hk)
  refine ⟨l, k, m, ?_, hleft, hright, hkind, hop⟩
  rw [htext]
  exact tokens_gap hbefore hl

/-- An operator builds the expression of its operands. -/
theorem builds_arithmetic {op : Arithmetic} {span : Option Span} {t u : Tree} {k : Token}
    (hk : k.kind.isTrivia = false) (hop : k.assemble = .ok (.arithmetic op)) (ht : t.Builds e) (hu : u.Builds f) :
    (Tree.node .arithmeticExpression span [t, .token k, u]).Builds (.arithmetic op e f) := by
  intro source
  have hoperator : (Tree.artifacts source [.token k]).outcome = .ok [.arithmetic op] := by
    rw [artifacts_token hk, hop]
    rfl
  exact artifacts_node_ok (by decide) (artifacts_cons_ok (ht source) (artifacts_cons_ok hoperator (hu source)))
    fun _ _ => rfl

/-- **A source of a power is read as the power of its operands.** -/
theorem parse_power (h : IsPower source e f) : ∃ t, parse false source = .ok t ∧
    (t.build source).outcome = .ok (some (.expr (.list [.arithmetic .power e f]))) := by
  obtain ⟨l, k, m, htokens, hl, hm, hk, hop⟩ := h.tokens
  let c : Cursor := ⟨0, [l, k, m]⟩
  let x : Cursor := ⟨l.stop, [k, m]⟩
  let y : Cursor := ⟨k.stop, [m]⟩
  let d : Cursor := ⟨m.stop, []⟩
  have hdots : ∀ j ∈ [l, k, m], j.kind ≠ .dots :=
    List.forall_mem_cons.2 ⟨hl.kind.2, List.forall_mem_cons.2 ⟨by rw [hk]; decide,
      List.forall_mem_singleton.2 hm.kind.2⟩⟩
  have hall : c.Passes [l, k, m] d := passes_all _
  have hu : c.Undotted := hall.undotted hdots (List.forall_mem_nil _)
  have hleft : c.Passes [l] x := .singleton rfl
  have hright : c.Passes [l, k] y := ⟨rfl, rfl⟩
  have hend : ∀ {kinds : List Terminal}, d.HeadIn kinds := fun j hj => absurd hj (Option.not_mem_none j)
  obtain ⟨t, ht, hbuildt⟩ := hl.reads (c := c) rfl hu (Cursor.headIn_of_rest rfl (by rw [hk]; decide)) 3
  obtain ⟨u, hu, hbuildu⟩ := hm.reads (c := y) rfl (hu.passes hright) hend 3
  -- one operator of its level, and none of a looser one
  have hkmem : k.kind ∈ levelOperators 2 := by
    rw [hk]
    decide
  have ho : c.Ordered := htokens.ordered
  have hbehind : x.Passes [k, m] d := ⟨rfl, rfl⟩
  have hlt : x.stop < d.stop := hbehind.lt_stop (ho.passes hleft)
  have htakes : Takes (unaryLevel (expression 3)) (levelOperators 2) (operatorsFrom 3) (t, x) (_, d) :=
    .intro rfl hkmem (hu.only _) hlt (Nat.zero_lt_succ _)
  have hpower := only_level (k := 2) (by decide) (ht.only _) (.single htakes) hend
  have hproduct := only_level (k := 1) (by decide) hpower .refl hend
  have hsum := only_level (k := 0) (by decide) hproduct .refl hend
  have hloops : ∀ j ∈ c.rest.head?, j.kind ∉ loopWords :=
    avoids (Cursor.headIn_of_rest rfl hl.kind.1) (by decide)
  have hexpression : (expression 4).Only c _ d (operatorsFrom 0) := only_expressionLevel hsum hloops hend
  have hplaink : k.token.kind.isTrivia = false := by
    rw [show k.token.kind = .power from hk]
    rfl
  exact parse_of_built htokens hexpression (by decide) (builds_arithmetic hplaink hop hbuildt hbuildu source)

end Sources

/-! ## Exact or null -/

/-- **Integer powers are exact or null.** With an exponent that is not negative, the power is the exact integer
where the base is at most one in magnitude or the exponent is at most 1024, and null elsewhere; it is never a
fraction. This holds of all expressions with this operator, and of the sources that have it between names or
numbers, in both spellings. -/
theorem integer_power_exact_or_null (a b : ℤ) (hb : 0 ≤ b) :
    Value.arithmetic .power (.whole a) (.whole b) = exactPower a b ∧
    (∀ x, Value.arithmetic .power (.whole a) (.whole b) ≠ .number (.real x)) ∧
    (∀ (registry : Fields) (scope : Scope) (e f : Expr), (e.eval registry scope).outcome = .ok (.whole a) →
      (f.eval registry scope).outcome = .ok (.whole b) →
        ((Expr.arithmetic .power e f).eval registry scope).outcome = .ok (exactPower a b)) ∧
    ∀ (source : String) (e f : Expr), IsPower source e f → ∀ registry bindings : Fields,
      e.eval registry (.ofFields bindings) = pure (.whole a) →
        f.eval registry (.ofFields bindings) = pure (.whole b) →
          evaluate ⟨registry, 0⟩ source bindings = pure (exactPower a b) := by
  have hpower := arithmetic_power_eq (a := a) hb
  refine ⟨hpower, fun x => ?_, ?_, ?_⟩
  · rw [hpower]
    exact exactPower_ne_real a b x
  · intro registry scope e f he hf
    simp only [Expr.eval, Run.bind_outcome, he, hf]
    exact congrArg Except.ok hpower
  · intro source e f hsource registry bindings he hf
    have hvalue : (Expr.arithmetic .power e f).eval registry (.ofFields bindings) = pure (exactPower a b) := by
      rw [Expr.eval, he, pure_bind, hf, pure_bind, hpower]
    exact evaluate_of_value (parse_power hsource) hvalue

/-- The first exponent beyond the limit, in a source. -/
theorem power_beyond_limit : (0 : ℤ) ≤ 1025 ∧ IsPower "x ^ 1025" (.name "x") (.number (.whole 1025)) ∧
    evaluate .standard "x ^ 1025" [("x", .whole (-2))] = pure .null ∧
    evaluate .standard "x ^ 1025" [("x", .whole (-1))] = pure (.whole ((-1) ^ 1025)) := by
  let d : Digits := ⟨['1', '0', '2', '5'], by decide, List.all_eq_true.1 rfl, by decide⟩
  have hb : (0 : ℤ) ≤ 1025 := by decide
  have hx : Lexer.IsName "x" := ⟨by decide, List.all_eq_true.1 (by decide), by decide⟩
  have hgap : Gap [' '] := List.forall_mem_singleton.2 (by decide)
  have hsource : IsPower "x ^ 1025" (.name "x") (.number (.whole 1025)) :=
    ⟨[], "x".toList, [' '], ['^'], [' '], d.text, [], by decide, by decide, .name hx, .digits d, Formula.gap_nil,
      hgap, hgap, Formula.gap_nil⟩
  have hvalue : ∀ a : ℤ, (Expr.name "x").eval standardRegistry (.ofFields [("x", .whole a)]) = pure (.whole a) :=
    fun a => eval_unregistered (.inl (by decide)) _
  refine ⟨hb, hsource, ?_, ?_⟩
  · have hnull : exactPower (-2) 1025 = .null := if_neg (by decide)
    rw [← hnull]
    exact (integer_power_exact_or_null (-2) 1025 hb).2.2.2 _ _ _ hsource _ _ (hvalue _) rfl
  · have hexact : exactPower (-1) 1025 = .whole ((-1) ^ 1025) := if_pos (by decide)
    rw [← hexact]
    exact (integer_power_exact_or_null (-1) 1025 hb).2.2.2 _ _ _ hsource _ _ (hvalue _) rfl

end Criterion

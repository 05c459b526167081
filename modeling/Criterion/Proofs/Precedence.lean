import Criterion.Proofs.Formulas
import Criterion.Proofs.RoundTrip

/-!
# Integer formulas evaluate to their value

The text of a formula is read as the formula: an operator takes what is tighter than it, operators of one
level are taken from left to right, and a minus sign takes no operator at all. The value of what is read is
the integer that the formula stands for, at any size.

* `Reads`, `Chains`: tokens that are read as an integer at a level, and how their operators follow each
  other there.
* `Chains.snoc`: an operator and a tighter formula behind a chain.
* `reads_digits`, `reads_negative`, `reads_parenthesized`: what needs no operator.
* `tokenizes_of_spells`: **the tokens of a formula are read as its value.**
* `formula_evaluates`: **the text of a formula evaluates to its value.**
-/

namespace Criterion

open Reader Grammar Lexer

/-! ## Arithmetic on integers -/

theorem wholePower_eq (a : ℤ) (b : ℕ) : Number.wholePower a b = a ^ b := by
  unfold Number.wholePower
  split
  · -- without multiplying: the powers of minus one alternate
    have hcases : a = 0 ∨ a = 1 ∨ a = -1 := by omega
    rcases Nat.eq_zero_or_pos b with rfl | hb
    · rw [if_pos rfl, pow_zero]
    rw [if_neg (by omega)]
    rcases hcases with rfl | rfl | rfl
    · rw [if_neg (by omega), zero_pow (by omega)]
    · rw [if_neg (by omega), one_pow]
    · rcases Nat.mod_two_eq_zero_or_one b with heven | hodd
      · rw [if_pos ⟨rfl, heven⟩, Even.neg_one_pow (Nat.even_iff.2 heven)]
      · rw [if_neg (by omega), Odd.neg_one_pow (Nat.odd_iff.2 hodd)]
  · rfl

theorem arithmetic_power (i : ℤ) {n : ℕ} (h : n ≤ 1024) :
    Value.arithmetic .power (.whole i) (.whole n) = .whole (i ^ n) := by
  have hpower : Number.pow? (.whole i) (.whole n) = some (.whole (i ^ n)) := by
    have hlimit : (0 : ℤ) ≤ n ∧ (i.natAbs ≤ 1 ∨ (n : ℤ) ≤ Number.powerLimit) := by
      unfold Number.powerLimit
      omega
    rw [Number.pow?, if_pos hlimit, Int.toNat_natCast, wholePower_eq]
  change Value.ofOption ((Option.filter Number.isFinite (Number.pow? (.whole i) (.whole n))).map
    Value.number) = _
  rw [hpower]
  rfl

namespace Operation

def arithmetic : Operation → Arithmetic
  | .plus => .plus
  | .minus => .minus
  | .times => .times

def kind : Operation → Terminal
  | .plus => .plus
  | .minus => .minus
  | .times => .star

theorem arithmetic_eq (op : Operation) (i j : ℤ) :
    Value.arithmetic op.arithmetic (.whole i) (.whole j) = .whole (op.apply i j) := by
  cases op <;> rfl

theorem level_lt (op : Operation) : op.level < 3 := by cases op <;> decide

theorem kind_mem (op : Operation) : op.kind ∈ levelOperators op.level := by cases op <;> decide

/-- The token of an operator stands for it. -/
theorem assemble (op : Operation) {l : Lexeme} (hkind : l.kind = op.kind)
    (htext : l.text = String.ofList [op.symbol]) :
    l.token.assemble = .ok (.arithmetic op.arithmetic) := by
  obtain ⟨kind, text, start, stop⟩ := l
  obtain rfl : kind = op.kind := hkind
  obtain rfl : text = String.ofList [op.symbol] := htext
  cases op <;> rfl

theorem symbol_numberless (op : Operation) (rest : List Char) : Numberless ([op.symbol] ++ rest) := by
  rintro c ⟨⟩
  cases op <;> decide

theorem scan_symbol (op : Operation) {unary : Bool} {rest : List Char} (h : ∀ c ∈ rest.head?, c ≠ '*') :
    scan? unary ([op.symbol] ++ rest) = some (op.kind, [op.symbol].length) := by
  cases op with
  | plus => rfl
  | minus => rfl
  | times => exact scan_star h

end Operation

namespace Tree

variable {span : Option Span} {t u : Tree} {v w : Value}

/-- Two operands and the operator between them. -/
theorem denotes_arithmetic {op : Arithmetic} {k : Token} (hk : k.kind.isTrivia = false)
    (hop : k.assemble = .ok (.arithmetic op)) (ht : t.Denotes v) (hu : u.Denotes w) :
    (Tree.node .arithmeticExpression span [t, .token k, u]).Denotes (Value.arithmetic op v w) := by
  intro source
  obtain ⟨a, ha, hv⟩ := ht source
  obtain ⟨b, hb, hw⟩ := hu source
  have hoperator : (artifacts source [.token k]).outcome = .ok [.arithmetic op] := by
    rw [artifacts_token hk, hop]
    rfl
  refine ⟨.arithmetic op a b, ?_, fun registry scope => ?_⟩
  · exact artifacts_node_ok (by decide) (artifacts_cons_ok ha (artifacts_cons_ok hoperator hb))
      fun _ _ => rfl
  · rw [Expr.eval, hv, pure_bind, hw, pure_bind]

theorem denotes_parenthesized (h : t.Denotes v) :
    (Tree.node .parenthesizedExpression span [t]).Denotes v := by
  intro source
  obtain ⟨e, he, heval⟩ := h source
  exact ⟨e, artifacts_node_ok (by decide) he fun _ _ => rfl, heval⟩

end Tree

/-! ## What the tokens of formulas are read as -/

/-- Tokens that are read as an integer at a level, in front of what may follow. A reader may go as deep
as there are tokens. -/
structure Reads (k : ℕ) (i : ℤ) (w : List Lexeme) : Prop where
  only : ∀ {n : ℕ} {c d : Cursor}, w.length ≤ n → c.Passes w d → c.Ordered → d.Undotted →
    d.HeadIn (followers k) →
      ∃ t, (level (expression n) k).Only c t d (operatorsFrom k) ∧ t.Denotes (.whole i)

/-- Tokens that are read as an integer by taking up operators of a level, also in front of more of
them. -/
structure Chains (k : ℕ) (i : ℤ) (w : List Lexeme) : Prop where
  chain : ∀ {n : ℕ} {c d : Cursor}, w.length ≤ n → c.Passes w d → c.Ordered → d.Undotted →
    d.HeadIn (followers (k + 1)) → ∃ first x t,
      (level (expression n) (k + 1)).Only c first x (operatorsFrom (k + 1)) ∧
        Relation.ReflTransGen (Takes (level (expression n) (k + 1)) (levelOperators k)
          (operatorsFrom (k + 1))) (first, x) (t, d) ∧ t.Denotes (.whole i)

/-- The tokens that a formula starts with. -/
def formulaStarts : List Terminal := [.number, .minus, .leftParen]

/-- Tokens that are read as an integer at all levels up to one. -/
structure ReadsUpTo (k : ℕ) (i : ℤ) (w : List Lexeme) : Prop where
  starts : ∃ l tail, w = l :: tail ∧ l.kind ∈ formulaStarts
  undotted : ∀ l ∈ w, l.kind ≠ .dots
  reads : ∀ j ≤ k, Reads j i w
  chains : ∀ j ≤ k, j < 3 → Chains j i w

section Reading

variable {j k : ℕ} {i r : ℤ} {u w : List Lexeme} {l m : Lexeme}

/-! ### From level to level -/

theorem Chains.reads (h : Chains k i w) (hk : k < 3) : Reads k i w := by
  refine ⟨fun {_ _ d} hn hpasses ho hu hd => ?_⟩
  have hlooser : d.HeadIn (followers (k + 1)) := fun l hl =>
    followers_succ hk (List.mem_append_right _ (hd l hl))
  obtain ⟨first, x, t, hfirst, hchain, hdenotes⟩ := h.chain hn hpasses ho hu hlooser
  exact ⟨t, only_level hk hfirst hchain hd, hdenotes⟩

/-- What is tighter is a chain by itself. -/
theorem Reads.chains (h : Reads (k + 1) i w) : Chains k i w := by
  refine ⟨fun {_ _ d} hn hpasses ho hu hd => ?_⟩
  obtain ⟨t, ht, hdenotes⟩ := h.only hn hpasses ho hu hd
  exact ⟨t, d, t, ht, .refl, hdenotes⟩

theorem Reads.looser (h : Reads k i w) (hk : k ≤ 3) (hj : j ≤ k) : Reads j i w :=
  Nat.decreasingInduction' (fun _ hm _ hread => hread.chains.reads (by omega)) hj h

theorem ReadsUpTo.mono (h : ReadsUpTo k i w) (hj : j ≤ k) : ReadsUpTo j i w :=
  ⟨h.starts, h.undotted, fun m hm => h.reads m (hm.trans hj), fun m hm => h.chains m (hm.trans hj)⟩

/-- A chain of a level is read at all looser ones. -/
theorem Chains.readsUpTo (h : Chains k i w) (hk : k < 3)
    (hstarts : ∃ l tail, w = l :: tail ∧ l.kind ∈ formulaStarts) (hdots : ∀ l ∈ w, l.kind ≠ .dots) :
    ReadsUpTo k i w := by
  have hreads : ∀ j ≤ k, Reads j i w := fun j hj => (h.reads hk).looser hk.le hj
  refine ⟨hstarts, hdots, hreads, fun j hj _ => ?_⟩
  rcases hj.eq_or_lt with rfl | hlt
  · exact h
  · exact (hreads (j + 1) hlt).chains

/-- An operand is read at all levels. -/
theorem Reads.readsUpTo (h : Reads 3 i w) (hk : k ≤ 3)
    (hstarts : ∃ l tail, w = l :: tail ∧ l.kind ∈ formulaStarts) (hdots : ∀ l ∈ w, l.kind ≠ .dots) :
    ReadsUpTo k i w :=
  ⟨hstarts, hdots, fun _ hj => h.looser le_rfl (hj.trans hk),
    fun _ _ hlt => (h.looser le_rfl hlt).chains⟩

/-! ### Operators -/

/-- **An operator and a tighter formula behind a chain**: the chain takes them up. -/
theorem Chains.snoc {op : Arithmetic} {s : ℤ} (hu : Chains k i u) (hw : Reads (k + 1) s w) (hk : k < 3)
    (hdots : ∀ l ∈ w, l.kind ≠ .dots) (hl : l.kind ∈ levelOperators k)
    (hop : l.token.assemble = .ok (.arithmetic op))
    (hr : Value.arithmetic op (.whole i) (.whole s) = .whole r) : Chains k r (u ++ l :: w) := by
  have hplain := levelOperators_plain hk l.kind hl
  refine ⟨fun {n c d} hn hpasses ho hd hfollow => ?_⟩
  rw [List.length_append, List.length_cons] at hn
  obtain ⟨y, hleft, hright⟩ := hpasses.split
  obtain ⟨z, hsign, hoperand⟩ := Cursor.Passes.split (u := [l]) hright
  have hy : y.rest = l :: z.rest := hsign.rest
  have hz : z = ⟨l.stop, z.rest⟩ := Cursor.Passes.eq_mk (w := []) hsign
  have hordered := ho.passes hleft
  have hdots : ∀ m ∈ l :: w, m.kind ≠ .dots := List.forall_mem_cons.2 ⟨hplain.1, hdots⟩
  -- an operator of the level may follow the chain, and what follows the whole may follow its operand
  obtain ⟨first, x, t, hfirst, hchain, ht⟩ := hu.chain (n := n) (by omega) hleft ho
    (hright.undotted hdots hd) (Cursor.headIn_of_rest hy (followers_succ hk (List.mem_append_left _ hl)))
  obtain ⟨operand, hread, hdenotes⟩ :=
    hw.only (n := n) (by omega) hoperand (hordered.passes hsign) hd hfollow
  rw [hz] at hread
  have hlength : d.rest.length < y.rest.length := by
    rw [hright.rest, List.length_append, List.length_cons]
    omega
  have htakes : Takes _ _ _ (t, y) (_, d) := .intro hy hl hread (hright.lt_stop hordered) hlength
  refine ⟨first, x, _, hfirst, hchain.tail htakes, ?_⟩
  rw [← hr]
  exact Tree.denotes_arithmetic hplain.2 hop ht hdenotes

theorem starts_append (h : ∃ l tail, u = l :: tail ∧ l.kind ∈ formulaStarts) (w : List Lexeme) :
    ∃ l tail, u ++ w = l :: tail ∧ l.kind ∈ formulaStarts := by
  obtain ⟨l, tail, rfl, hl⟩ := h
  exact ⟨l, tail ++ w, rfl, hl⟩

/-- Two formulas with an operator between them. -/
theorem ReadsUpTo.join {op : Arithmetic} {s : ℤ} (hu : ReadsUpTo k i u) (hw : ReadsUpTo (k + 1) s w)
    (hk : k < 3) (hl : l.kind ∈ levelOperators k) (hop : l.token.assemble = .ok (.arithmetic op))
    (hr : Value.arithmetic op (.whole i) (.whole s) = .whole r) : ReadsUpTo k r (u ++ l :: w) := by
  have hdots : ∀ m ∈ u ++ l :: w, m.kind ≠ .dots := by
    rw [List.forall_mem_append, List.forall_mem_cons]
    exact ⟨hu.undotted, (levelOperators_plain hk l.kind hl).1, hw.undotted⟩
  exact ((hu.chains k le_rfl hk).snoc (hw.reads _ le_rfl) hk hw.undotted hl hop hr).readsUpTo hk
    (starts_append hu.starts _) hdots

/-! ### Operands -/

/-- A primary expression is an operand. -/
theorem sole_operand {e : Reader Tree} {c d : Cursor} {t : Tree} (h : (primary e).Sole c t d)
    (hc : c.HeadIn [.number, .leftParen]) (hd : d.HeadIn (followers 3)) : (level e 3).Sole c t d :=
  sole_signs (sole_postfixLevel h (avoids_one hc (by decide)) (avoids hd (by decide)))
    (avoids_one hc (by decide)) _

theorem reads_digits (hl : l.kind = .number) (h : (Tree.token l.token).Denotes (.whole i)) :
    Reads 3 i [l] := by
  refine ⟨fun {n c d} _ hpasses ho hd hfollow => ?_⟩
  have hc : c.rest = l :: d.rest := hpasses.rest
  have hplace : d = ⟨l.stop, d.rest⟩ := Cursor.Passes.eq_mk (w := []) hpasses
  have hu : c.Undotted := hpasses.undotted (List.forall_mem_singleton.2 (by rw [hl]; decide)) hd
  have hprimary : (primary (expression n)).Sole c (.token l.token) d := by
    rw [hplace]
    exact sole_primary_literal (yields_expression n) hu hc (by rw [hl]; decide)
  exact ⟨_, (sole_operand hprimary (Cursor.headIn_of_rest hc (by rw [hl]; decide)) hfollow).only _, h⟩

/-- A minus sign takes an operand, which may have signs itself. -/
theorem reads_negative (hm : m.kind = .minus) (htext : m.text = "-") (hw : Reads 3 i w)
    (hdots : ∀ l ∈ w, l.kind ≠ .dots) : Reads 3 (-i) (m :: w) := by
  refine ⟨fun {n c d} hn hpasses ho hd hfollow => ?_⟩
  rw [List.length_cons] at hn
  obtain ⟨x, hsign, hoperand⟩ := Cursor.Passes.split (u := [m]) hpasses
  have hc : c.rest = m :: x.rest := hsign.rest
  have hx : x = ⟨m.stop, x.rest⟩ := Cursor.Passes.eq_mk (w := []) hsign
  have hu : c.Undotted :=
    hpasses.undotted (List.forall_mem_cons.2 ⟨by rw [hm]; decide, hdots⟩) hd
  obtain ⟨t, ht, hdenotes⟩ := hw.only (n := n) (by omega) hoperand (ho.passes hsign) hd hfollow
  rw [hx] at ht
  have hhead : c.HeadIn [.minus] := Cursor.headIn_of_rest hc (List.mem_singleton.2 hm)
  have hprimary := primary_blocked (yields_expression n) hu (avoids hhead (by decide))
  have hpostfix := postfixLevel_blocked hprimary (avoids_one hhead (by decide))
  obtain ⟨span, hspan⟩ := sole_negative hc hm hpostfix (ht.sole (descending_unaryLevel _ _))
  exact ⟨_, hspan.only _, Tree.denotes_negative hm htext hdenotes⟩

/-- What is read as a sum is read as an expression. -/
theorem ReadsUpTo.expression (hw : ReadsUpTo 0 i w) {n : ℕ} {c d : Cursor} (hn : w.length ≤ n)
    (hpasses : c.Passes w d) (ho : c.Ordered) (hd : d.Undotted) (hfollow : d.HeadIn (followers 0)) :
    ∃ t, (expression (n + 1)).Only c t d (operatorsFrom 0) ∧ t.Denotes (.whole i) := by
  obtain ⟨t, ht, hdenotes⟩ := (hw.reads 0 le_rfl).only hn hpasses ho hd hfollow
  have hhead : c.HeadIn formulaStarts := by
    obtain ⟨l, tail, rfl, hl⟩ := hw.starts
    exact Cursor.headIn_of_rest hpasses.rest hl
  exact ⟨t, only_expressionLevel ht (avoids hhead (by decide)) hfollow, hdenotes⟩

/-- A formula in parentheses is an operand. -/
theorem reads_parenthesized (hl : l.kind = .leftParen) (hm : m.kind = .rightParen)
    (hw : ReadsUpTo 0 i w) : Reads 3 i (l :: (w ++ [m])) := by
  refine ⟨fun {n c d} hn hpasses ho hd hfollow => ?_⟩
  rw [List.length_cons, List.length_append, List.length_singleton] at hn
  -- the expression inside is one level deeper, and has two tokens less
  obtain ⟨n, rfl⟩ : ∃ k, n = k + 1 := ⟨n - 1, by omega⟩
  obtain ⟨x, hopening, hbehind⟩ := Cursor.Passes.split (u := [l]) hpasses
  obtain ⟨y, hinner, hclosing⟩ := hbehind.split
  have hc : c.rest = l :: x.rest := hopening.rest
  have hx : x = ⟨l.stop, x.rest⟩ := Cursor.Passes.eq_mk (w := []) hopening
  have hy : y.rest = m :: d.rest := hclosing.rest
  have hplace : d = ⟨m.stop, d.rest⟩ := Cursor.Passes.eq_mk (w := []) hclosing
  have hyu : y.Undotted := hclosing.undotted (List.forall_mem_singleton.2 (by rw [hm]; decide)) hd
  have hu : c.Undotted :=
    hopening.undotted (List.forall_mem_singleton.2 (by rw [hl]; decide)) (hinner.undotted hw.undotted hyu)
  obtain ⟨t, ht, hdenotes⟩ := hw.expression (n := n) (by omega) hinner (ho.passes hopening) hyu
    (Cursor.headIn_of_rest hy (by rw [hm]; decide))
  rw [hx] at ht
  obtain ⟨span, hspan⟩ := sole_parenthesized hc hl ht (by decide) (by decide) hy hm
  rw [← hplace] at hspan
  have hhead : c.HeadIn [.leftParen] := Cursor.headIn_of_rest hc (List.mem_singleton.2 hl)
  have hprimary := sole_primary_parenthesized (yields_expression (n + 1)) hu hhead hspan
  exact ⟨_, (sole_operand hprimary (fun k hk => List.mem_cons_of_mem _ (hhead k hk)) hfollow).only _,
    Tree.denotes_parenthesized hdenotes⟩

end Reading

/-! ## Whole formulas -/

section Whole

variable {f : Formula} {k : ℕ} {cs : List Char} {unary : Bool}

/-- The tokens of digits are read as their number, at all levels. -/
theorem readsUpTo_digits (d : Digits) (hk : k ≤ 3) (start stop : ℕ) :
    ReadsUpTo k d.value [⟨.number, String.ofList d.text, start, stop⟩] := by
  let l : Lexeme := ⟨.number, String.ofList d.text, start, stop⟩
  have hassemble : l.token.assemble = .ok (.expr (.number (.whole d.value))) := by
    change (numberLiteral (String.ofList d.text)).map Artifact.expr = _
    rw [numberLiteral_ascii d.ascii d.nonempty d.short]
    rfl
  have hdenotes : (Tree.token l.token).Denotes (.whole d.value) :=
    Tree.denotes_token rfl hassemble fun _ _ => rfl
  exact (reads_digits (l := l) rfl hdenotes).readsUpTo hk
    ⟨l, [], rfl, List.mem_cons_self⟩ (List.forall_mem_singleton.2 Terminal.noConfusion)

/-- **The tokens of a formula are read as its value**, where formulas of a level are expected. -/
theorem tokenizes_of_spells (h : f.Spells k cs) (hk : k ≤ 3) :
    Tokenizes unary cs (ReadsUpTo k f.value) := by
  induction h with
  | @digits k d => exact tokenizes_digits d fun start stop => readsUpTo_digits d hk start stop
  | negative hgap _ ih =>
    refine tokenizes_negative hgap (ih le_rfl) fun l w hl htext hw => ?_
    exact (reads_negative hl htext (hw.reads 3 le_rfl) hw.undotted).readsUpTo hk
      ⟨l, w, rfl, by rw [hl]; decide⟩ (List.forall_mem_cons.2 ⟨by rw [hl]; decide, hw.undotted⟩)
  | @join _ op _ _ _ _ _ _ hle _ _ hbefore hafter ihf ihg =>
    have hlevel := op.level_lt
    have hplain : op.kind.isTrivia = false := by cases op <;> rfl
    refine tokenizes_joined (ihf hlevel.le) (ihg hlevel) hbefore hafter hplain op.symbol_numberless
      (fun _ => op.scan_symbol) fun u l w hl htext hu hw => ?_
    -- it is read at the level of its operator, and so at the looser one that is expected
    have hmem : l.kind ∈ levelOperators op.level := hl ▸ op.kind_mem
    exact (hu.join hw hlevel hmem (op.assemble hl htext) (op.arithmetic_eq _ _)).mono hle
  | @power _ _ d small _ _ _ hle _ hbefore hafter ih =>
    have hexponent : Tokenizes unary d.text (ReadsUpTo 3 d.value) :=
      tokenizes_digits d fun start stop => readsUpTo_digits d le_rfl start stop
    have hstars : ∀ rest, Numberless (['*', '*'] ++ rest) := by
      rintro rest c ⟨⟩
      decide
    refine tokenizes_joined (ih (by decide)) hexponent hbefore hafter (t := .power) rfl hstars
      (fun _ _ => rfl) fun u l w hl htext hu hw => ?_
    have hop : l.token.assemble = .ok (.arithmetic .power) := by
      obtain ⟨kind, text, start, stop⟩ := l
      obtain rfl : kind = .power := hl
      obtain rfl : text = String.ofList ['*', '*'] := htext
      rfl
    have hmem : l.kind ∈ levelOperators 2 := by
      rw [hl]
      decide
    exact (hu.join hw (by decide) hmem hop (arithmetic_power _ small)).mono hle
  | parenthesized _ _ hbefore hafter ih =>
    refine tokenizes_parenthesized hbefore hafter (ih (Nat.zero_le _)) fun l w m hl hm hw => ?_
    have hdots : ∀ n ∈ l :: (w ++ [m]), n.kind ≠ .dots := by
      rw [List.forall_mem_cons, List.forall_mem_append, List.forall_mem_singleton, hl, hm]
      exact ⟨by decide, hw.undotted, by decide⟩
    exact (reads_parenthesized hl hm hw).readsUpTo hk ⟨l, _, rfl, by rw [hl]; decide⟩ hdots

/-- **The text of an integer formula evaluates to its value**, exactly and at any size, whatever names the
registry and the bindings give to values. Only a trace fails that has to show more than `digitLimit`
digits. -/
theorem formula_evaluates {f : Formula} {source : String} (hsource : f.Spelled source) {s : Settings}
    (hshown : s.detail = 0 ∨ f.value.natAbs < 10 ^ digitLimit) (bindings : Fields) :
    (evaluate s source bindings).outcome = .ok (.whole f.value) := by
  obtain ⟨before, cs, after, hcs, hspells, hbefore, hafter⟩ := hsource
  have hend : ∀ position, Tokens false position after [] := by
    intro position
    rw [← List.append_nil after]
    exact tokens_gap hafter .done
  have hnumberless : Numberless after := by
    rw [← List.append_nil after]
    exact numberless_gap hafter fun c hc => absurd hc (Option.not_mem_none c)
  have hbehind : Tokens false (0 + before.length + cs.length) after [] := hend _
  obtain ⟨w, htokens, hw⟩ :=
    (tokenizes_of_spells hspells (Nat.zero_le _)).behind_gap hbefore hnumberless hbehind
  rw [← hcs, List.append_nil] at htokens
  obtain ⟨t, ht, hdenotes⟩ := hw.expression le_rfl (passes_all w) htokens.ordered
    (List.forall_mem_nil _) fun l hl => absurd hl (Option.not_mem_none l)
  obtain ⟨t, e, hparse, hbuild, he⟩ := parse_of_only htokens ht (by decide) hdenotes
  have hvalue : ((Artifact.expr (.list [e])).eval s.registry (.ofFields bindings)).outcome =
      .ok (.list [.whole f.value]) := by
    rw [Artifact.eval, Expr.eval, Expr.evalItems, he]
    rfl
  refine evaluate_outcome hparse hbuild hvalue (hshown.imp_right fun hsmall => ?_)
  exact shown_of_hasLiteral (.whole hsmall)

/-- A minus sign is tighter than a power, and operators of one level are taken from left to right. -/
theorem signs_and_powers_evaluate :
    (evaluate .standard "-2**2-(1--2)*3**2**1-7" []).outcome = .ok (.whole (-30)) := by
  let one : Digits := ⟨['1'], by decide, List.all_eq_true.1 rfl, by decide⟩
  let two : Digits := ⟨['2'], by decide, List.all_eq_true.1 rfl, by decide⟩
  let three : Digits := ⟨['3'], by decide, List.all_eq_true.1 rfl, by decide⟩
  let seven : Digits := ⟨['7'], by decide, List.all_eq_true.1 rfl, by decide⟩
  let product : Formula := .join .times (.join .minus (.digits one) (.negative (.digits two)))
    (.power (.power (.digits three) two (by decide)) one (by decide))
  let f : Formula := .join .minus
    (.join .minus (.power (.negative (.digits two)) two (by decide)) product) (.digits seven)
  have htext : f.text = "-2**2-(1--2)*3**2**1-7" := by decide
  have hvalue : f.value = -30 := by decide
  have h := formula_evaluates f.spelled_text (s := .standard) (.inl rfl) []
  rwa [htext, hvalue] at h

end Whole

end Criterion

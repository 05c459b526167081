import Criterion.Proofs.Applications

/-!
# Parts of a text

`substring` takes the characters of a text from a position on, all of them or at most as many as a length says.
Positions count from one, and negative ones from the end; one that would lie before the text counts as its start.
Positions and lengths are integers here, of any size.

* `Library.onward`: the text from a position on.
* `onward_succ`, `onward_neg`: what is cut off in front of a positive and of a negative position.
* `substring_whole`, `substring_length`, `substring_refused`: **what `substring` answers for integers.**
* `evaluate_rejoined`, `evaluate_last`: what is cut off at both ends of a text.
* `substring_cuts`: **a text is cut without loss or overlap.**
-/

namespace Criterion

namespace Library

variable {s : String} {p m : ℤ}

/-! ## Positions -/

/-- The text from a position on, which is not zero. -/
def onward (s : String) (p : ℤ) : String := String.ofList (s.toList.drop (cutStart s.length (decide (0 < p)) p))

/-- A text is cut into its first characters and the others. -/
theorem front_append_behind (s : String) (k : ℕ) :
    String.ofList (s.toList.take k) ++ String.ofList (s.toList.drop k) = s := by
  rw [← String.ofList_append, List.take_append_drop, String.ofList_toList]

/-- Behind `k` characters a text goes on with the one at position `k + 1`. -/
theorem onward_succ (s : String) (k : ℕ) : onward s (k + 1) = String.ofList (s.toList.drop k) := by
  have hpos : (0 : ℤ) < k + 1 := by omega
  have hstart : cutStart s.length true (k + 1) = k := by
    rw [cutStart, if_pos rfl]
    omega
  rw [onward, decide_eq_true hpos, hstart]

/-- From position `-k` on there are the last `k` characters. -/
theorem onward_neg (s : String) {k : ℕ} (hk : 1 ≤ k) :
    onward s (-k) = String.ofList (s.toList.drop (s.length - k)) := by
  have hneg : ¬(0 : ℤ) < -k := by omega
  have hstart : cutStart s.length false (-k) = s.length - k := by
    rw [cutStart, if_neg Bool.false_ne_true]
    omega
  rw [onward, decide_eq_false hneg, hstart]

/-- The last characters of a text, counted from its end or from its start. -/
theorem onward_neg_eq {k : ℕ} (hk : 1 ≤ k) (hle : k ≤ s.length) : onward s (-k) = onward s (s.length - k + 1) := by
  have hplace : (s.length : ℤ) - k + 1 = (s.length - k : ℕ) + 1 := by omega
  rw [onward_neg s hk, hplace, onward_succ]

/-! ## The function -/

theorem offset_whole (s : String) (p : ℤ) :
    substring.offset s (.whole p) = .ok (cutStart s.length (decide (0 < p)) p) := by
  have hsign : Number.lt (.whole 0) (.whole p) = decide (0 < p) := by
    rw [Bool.eq_iff_iff, decide_eq_true_iff, Number.lt, Number.compare?, beq_iff_eq, Option.some.injEq,
      compare_lt_iff_lt]
  rw [substring.offset, hsign]
  rfl

theorem isZero_whole (hp : p ≠ 0) : Number.isZero (.whole p) = false := beq_false_of_ne hp

/-- **Without a length, `substring` answers the text from the position on.** -/
theorem substring_whole (hp : p ≠ 0) : substring (.text s) (.whole p) .null = .ok (.text (onward s p)) := by
  simp only [substring, Value.whole, isZero_whole hp, offset_whole]
  rfl

/-- **With a length, it answers the first characters of that.** -/
theorem substring_length (hp : p ≠ 0) (hm : 0 ≤ m) : substring (.text s) (.whole p) (.whole m) =
    .ok (.text (String.ofList ((onward s p).toList.take m.toNat))) := by
  have hlength : Number.lt (.whole m) (.whole 0) = false := by
    rw [Bool.eq_false_iff, Ne, Number.lt, Number.compare?, beq_iff_eq, Option.some.injEq, compare_lt_iff_lt]
    omega
  simp only [substring, Value.whole, isZero_whole hp, hlength, offset_whole]
  rw [onward, String.toList_ofList]
  rfl

/-- The first characters of a text, as many as are asked for and there are. -/
theorem substring_front (s : String) (k : ℕ) :
    substring (.text s) (.whole 1) (.whole k) = .ok (.text (String.ofList (s.toList.take k))) := by
  have hfirst := substring_length (s := s) (p := (0 : ℕ) + 1) (by omega) (Int.natCast_nonneg k)
  rwa [onward_succ, String.toList_ofList] at hfirst

/-- The characters behind these. -/
theorem substring_behind (s : String) (k : ℕ) :
    substring (.text s) (.whole (k + 1)) .null = .ok (.text (String.ofList (s.toList.drop k))) := by
  rw [substring_whole (by omega), onward_succ]

/-- There is no position zero, and there are no negative lengths. -/
theorem substring_refused (h : p = 0 ∨ m < 0) : substring (.text s) (.whole p) (.whole m) = .ok .null := by
  by_cases hp : p = 0
  · subst hp
    rfl
  · have hlength : Number.lt (.whole m) (.whole 0) = true := by
      rw [Number.lt, Number.compare?, beq_iff_eq, Option.some.injEq, compare_lt_iff_lt]
      exact h.resolve_left hp
    simp only [substring, Value.whole, isZero_whole hp, hlength]
    rfl

/-- No integers make the function fail. -/
theorem exists_substring (s : String) (p m : ℤ) : (∃ v, substring (.text s) (.whole p) .null = .ok v) ∧
    ∃ v, substring (.text s) (.whole p) (.whole m) = .ok v := by
  by_cases hp : p = 0
  · subst hp
    exact ⟨⟨.null, rfl⟩, .null, substring_refused (.inl rfl)⟩
  · refine ⟨⟨_, substring_whole hp⟩, ?_⟩
    by_cases hm : m < 0
    · exact ⟨.null, substring_refused (.inr hm)⟩
    · exact ⟨_, substring_length hp (not_lt.1 hm)⟩

end Library

open Library

/-! ## Calls -/

section Calls

variable {bindings : Fields} {e f g : Expr} {s : String} {p m : ℤ} {v : Value}

theorem Expr.gives_substring (source : String) (he : e.Gives bindings (.text s)) (hf : f.Gives bindings (.whole p))
    (hv : substring (.text s) (.whole p) .null = .ok v) :
    (Expr.call source (.name "substring") [e, f]).Gives bindings v :=
  .apply (Expr.gives_builtin bindings .substring) (.cons he (.cons hf .nil)) rfl hv

theorem Expr.gives_substring_length (source : String) (he : e.Gives bindings (.text s))
    (hf : f.Gives bindings (.whole p)) (hg : g.Gives bindings (.whole m))
    (hv : substring (.text s) (.whole p) (.whole m) = .ok v) :
    (Expr.call source (.name "substring") [e, f, g]).Gives bindings v :=
  .apply (Expr.gives_builtin bindings .substring) (.cons he (.cons hf (.cons hg .nil))) rfl hv

theorem Expr.gives_s (hs : bindings.get? "s" = some (.text s)) : (Expr.name "s").Gives bindings (.text s) :=
  Expr.gives_name (.inl (by decide)) hs

theorem evaluate_onward (hs : bindings.get? "s" = some (.text s)) (hp : bindings.get? "p" = some (.whole p))
    (hv : substring (.text s) (.whole p) .null = .ok v) :
    (evaluate .standard "substring(s, p)" bindings).outcome = .ok v :=
  (Expr.gives_substring "substring(s, p)" (Expr.gives_s hs) (Expr.gives_name (.inl (by decide)) hp) hv).evaluate
    (by decide +kernel)

theorem evaluate_part (hs : bindings.get? "s" = some (.text s)) (hp : bindings.get? "p" = some (.whole p))
    (hm : bindings.get? "m" = some (.whole m)) (hv : substring (.text s) (.whole p) (.whole m) = .ok v) :
    (evaluate .standard "substring(s, p, m)" bindings).outcome = .ok v :=
  (Expr.gives_substring_length "substring(s, p, m)" (Expr.gives_s hs) (Expr.gives_name (.inl (by decide)) hp)
    (Expr.gives_name (.inl (by decide)) hm) hv).evaluate (by decide +kernel)

/-- The first `k` characters and the others, put together. -/
theorem evaluate_rejoined {k : ℕ} (hs : bindings.get? "s" = some (.text s)) (hk : bindings.get? "k" = some (.whole k)) :
    (evaluate .standard "substring(s, 1, k) + substring(s, k + 1)" bindings).outcome = .ok (.text s) := by
  have hcount : (Expr.name "k").Gives bindings (.whole k) := Expr.gives_name (.inl (by decide)) hk
  have hone := Expr.gives_number bindings (.whole 1)
  have hfront := Expr.gives_substring_length "substring(s, 1, k)" (Expr.gives_s hs) hone hcount (substring_front s k)
  have hbehind := Expr.gives_substring "substring(s, k + 1)" (Expr.gives_s hs) (.arithmetic .plus hcount hone)
    (substring_behind s k)
  have hvalue : Value.arithmetic .plus (.text (String.ofList (s.toList.take k)))
      (.text (String.ofList (s.toList.drop k))) = .text s := congrArg Value.text (front_append_behind s k)
  have hsum := Expr.Gives.arithmetic .plus hfront hbehind
  rw [hvalue] at hsum
  exact hsum.evaluate (by decide +kernel)

/-- The last `k` characters, counted from the end. -/
theorem evaluate_last {k : ℕ} (hs : bindings.get? "s" = some (.text s)) (hk : bindings.get? "k" = some (.whole k))
    (hpos : 1 ≤ k) : (evaluate .standard "substring(s, -k)" bindings).outcome = .ok (.text (onward s (-k))) := by
  have hcount : (Expr.name "k").Gives bindings (.whole k) := Expr.gives_name (.inl (by decide)) hk
  have hlast := Expr.gives_substring "substring(s, -k)" (Expr.gives_s hs) (p := 0 - k) (.unary .minus hcount)
    (substring_whole (by omega))
  rw [zero_sub] at hlast
  exact hlast.evaluate (by decide +kernel)

/-- The last `k` characters, counted from the start. -/
theorem evaluate_last_placed {k : ℕ} (hs : bindings.get? "s" = some (.text s))
    (hk : bindings.get? "k" = some (.whole k)) (hn : bindings.get? "n" = some (.whole s.length)) (hle : k ≤ s.length) :
    (evaluate .standard "substring(s, n - k + 1)" bindings).outcome =
      .ok (.text (onward s (s.length - k + 1))) := by
  have hcount : (Expr.name "k").Gives bindings (.whole k) := Expr.gives_name (.inl (by decide)) hk
  have hlength : (Expr.name "n").Gives bindings (.whole s.length) := Expr.gives_name (.inl (by decide)) hn
  have hplace := (hlength.arithmetic .minus hcount).arithmetic .plus (Expr.gives_number bindings (.whole 1))
  exact (Expr.gives_substring "substring(s, n - k + 1)" (Expr.gives_s hs) (p := s.length - k + 1) hplace
    (substring_whole (by omega))).evaluate (by decide +kernel)

end Calls

/-- **A text is cut without loss or overlap.** The first `k` characters and the text from position `k + 1` on make
up the text. From position `-k` on there are the last `k` characters, or all if there are no more than these, and
the same characters are found from the position that they have from the start. A length takes at most so many of the
first characters from a position on. Position zero and negative lengths give null, and no integers make the function
fail. -/
theorem substring_cuts (bindings : Fields) (s : String) (hs : bindings.get? "s" = some (.text s)) :
    (∀ k : ℕ, bindings.get? "k" = some (.whole k) →
      (evaluate .standard "substring(s, 1, k) + substring(s, k + 1)" bindings).outcome = .ok (.text s)) ∧
    (∀ k : ℕ, 1 ≤ k → bindings.get? "k" = some (.whole k) → ∃ front back, s = front ++ back ∧
      back.length = min k s.length ∧
      (evaluate .standard "substring(s, -k)" bindings).outcome = .ok (.text back) ∧
      (k ≤ s.length → bindings.get? "n" = some (.whole s.length) →
        (evaluate .standard "substring(s, n - k + 1)" bindings).outcome = .ok (.text back))) ∧
    (∀ p m : ℤ, bindings.get? "p" = some (.whole p) → bindings.get? "m" = some (.whole m) → p ≠ 0 → 0 ≤ m →
      ∃ first rest, (evaluate .standard "substring(s, p)" bindings).outcome = .ok (.text (first ++ rest)) ∧
        first.length = min m.toNat (first ++ rest).length ∧
        (evaluate .standard "substring(s, p, m)" bindings).outcome = .ok (.text first)) ∧
    (∀ p : ℤ, bindings.get? "p" = some (.whole p) →
      (p = 0 → (evaluate .standard "substring(s, p)" bindings).outcome = .ok .null) ∧
      (∃ v, (evaluate .standard "substring(s, p)" bindings).outcome = .ok v) ∧
      ∀ m : ℤ, bindings.get? "m" = some (.whole m) →
        (p = 0 ∨ m < 0 → (evaluate .standard "substring(s, p, m)" bindings).outcome = .ok .null) ∧
        ∃ v, (evaluate .standard "substring(s, p, m)" bindings).outcome = .ok v) := by
  refine ⟨fun k hk => evaluate_rejoined hs hk, fun k hpos hk => ?last, fun p m hp hm hne hle => ?part, fun p hp => ?any⟩
  case last =>
    refine ⟨String.ofList (s.toList.take (s.length - k)), onward s (-k), ?_, ?_, evaluate_last hs hk hpos,
      fun hle hn => ?_⟩
    · rw [onward_neg s hpos, front_append_behind]
    · rw [onward_neg s hpos, String.length_ofList, List.length_drop, String.length_toList]
      omega
    · rw [onward_neg_eq hpos hle]
      exact evaluate_last_placed hs hk hn hle
  case part =>
    refine ⟨String.ofList ((onward s p).toList.take m.toNat), String.ofList ((onward s p).toList.drop m.toNat), ?_, ?_,
      evaluate_part hs hp hm (substring_length hne hle)⟩
    · rw [front_append_behind]
      exact evaluate_onward hs hp (substring_whole hne)
    · rw [front_append_behind, String.length_ofList, List.length_take, String.length_toList]
  case any =>
    refine ⟨?_, ?_, fun m hm => ⟨fun hrefused => evaluate_part hs hp hm (substring_refused hrefused), ?_⟩⟩
    · rintro rfl
      exact evaluate_onward hs hp rfl
    · obtain ⟨⟨v, hv⟩, -⟩ := exists_substring s p 0
      exact ⟨v, evaluate_onward hs hp hv⟩
    · obtain ⟨-, v, hv⟩ := exists_substring s p m
      exact ⟨v, evaluate_part hs hp hm hv⟩

/-- Two of six characters, counted from both ends, and a length that goes beyond them. -/
theorem substring_cuts_foobar :
    let bindings : Fields := [("s", .text "foobar"), ("k", .whole (2 : ℕ)), ("n", .whole (6 : ℕ)), ("p", .whole (-3)),
      ("m", .whole 8)]
    (evaluate .standard "substring(s, 1, k) + substring(s, k + 1)" bindings).outcome = .ok (.text "foobar") ∧
      (∃ front back, "foobar" = front ++ back ∧ back.length = 2 ∧
        (evaluate .standard "substring(s, -k)" bindings).outcome = .ok (.text back) ∧
        (evaluate .standard "substring(s, n - k + 1)" bindings).outcome = .ok (.text back)) ∧
      (∃ first rest, (evaluate .standard "substring(s, p)" bindings).outcome = .ok (.text (first ++ rest)) ∧
        first.length = min 8 (first ++ rest).length ∧
        (evaluate .standard "substring(s, p, m)" bindings).outcome = .ok (.text first)) ∧
      ∃ v, (evaluate .standard "substring(s, p, m)" bindings).outcome = .ok v := by
  intro bindings
  obtain ⟨hjoined, hlast, hlength, hany⟩ := substring_cuts bindings "foobar" rfl
  obtain ⟨front, back, hcut, htwo, hnegative, hplace⟩ := hlast 2 (by decide) rfl
  exact ⟨hjoined 2 rfl, ⟨front, back, hcut, htwo, hnegative, hplace (by decide) rfl⟩,
    hlength (-3) 8 rfl rfl (by decide) (by decide), ((hany (-3) rfl).2.2 8 rfl).2⟩

end Criterion

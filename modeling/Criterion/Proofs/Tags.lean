import Criterion.Proofs.Building

/-!
# Tags are sound

A tag is computed from the form of an expression, before any value is known. Whatever the scope, the
value of an expression that is tagged as a number, a text or a boolean is of this kind or null.

* `Tag.Allows`: the values that a tag allows.
* `arithmetic_cases`: the kinds of results that arithmetic has, by the kinds of its operands.
* `eval_allows`: **the value of an expression is one that its tag allows.**
* `tags_sound`: so is the value of each part of a source.
-/

namespace Criterion

/-- The kind of values that a tag stands for, if it stands for one. -/
def Tag.kind? : Tag → Option Value.Kind
  | .number => some .number
  | .string => some .text
  | .boolean => some .boolean
  | .test | .any => none

/-- The values that a tag allows: null and those of its kind. A tag without a kind allows all. -/
def Tag.Allows (k : Tag) (v : Value) : Prop :=
  ∀ kind, k.kind? = some kind → v.kind = kind ∨ v.kind = .null

/-- The kinds of values that lie in time or measure it. -/
def Value.Kind.isTemporal : Value.Kind → Bool
  | .date | .time | .moment | .duration => true
  | _ => false

theorem Tag.kind_notTemporal {k : Tag} {kind : Value.Kind} (h : k.kind? = some kind) :
    kind.isTemporal = false := by
  cases k <;> cases h <;> rfl

/-- No tag but that of its kind and those without a kind tells of a value. -/
theorem Tag.allows_of_kind {k : Tag} {v : Value} (h : k.kind? = some v.kind) : k.Allows v := by
  intro kind hkind
  rw [h] at hkind
  exact .inl (Option.some.inj hkind)

theorem Tag.allows_of_none {k : Tag} (h : k.kind? = none) (v : Value) : k.Allows v := by
  intro kind hkind
  rw [h] at hkind
  cases hkind

/-- A joined tag tells nothing, or both tags are this one. -/
theorem Tag.join_cases (a b : Option Tag) :
    Tag.join a b = .any ∨ (a = some (Tag.join a b) ∧ b = some (Tag.join a b)) := by
  unfold Tag.join
  cases a with
  | none => exact .inl rfl
  | some t =>
    by_cases hb : b = some t
    · simp only [hb, if_true]
      exact .inr ⟨trivial, trivial⟩
    · simp only [hb, if_false]
      exact .inl trivial

/-! ## Arithmetic -/

/-- Dates and durations only combine with each other and with numbers. -/
theorem temporal_of_some {op : Arithmetic} {a b v : Value} (h : Value.temporal? op a b = some v) :
    a.kind.isTemporal = true ∨ b.kind.isTemporal = true := by
  cases op with
  | power => cases h
  | _ =>
    simp only [Value.temporal?, Value.temporalSum?, Value.temporalDifference?,
      Value.temporalProduct?, Value.temporalQuotient?] at h
    split at h
    all_goals first
      | exact .inl rfl
      | exact .inr rfl
      | cases h

/-- **What arithmetic makes of two values**: null, a text of two texts, a number of two numbers, or
something of a value in time. -/
theorem arithmetic_cases (op : Arithmetic) (a b : Value) :
    (Value.arithmetic op a b).kind = .null ∨
      (a.kind = .text ∧ b.kind = .text ∧ (Value.arithmetic op a b).kind = .text) ∨
      (a.kind = .number ∧ b.kind = .number ∧ (Value.arithmetic op a b).kind = .number) ∨
      (a.kind.isTemporal = true ∨ b.kind.isTemporal = true) := by
  unfold Value.arithmetic
  split
  · exact .inl rfl
  -- texts are only joined, and numbers may leave the range of numbers
  split
  · split
    · exact .inr (.inl ⟨rfl, rfl, rfl⟩)
    · exact .inl rfl
  · rename_i m n _
    cases Number.arithmetic op m n with
    | none => exact .inl rfl
    | some r => exact .inr (.inr (.inl ⟨rfl, rfl, rfl⟩))
  · cases htemporal : Value.temporal? op a b with
    | none => exact .inl rfl
    | some v => exact .inr (.inr (.inr (temporal_of_some htemporal)))

/-- What a tag allows for both operands it allows for the result. -/
theorem arithmetic_allows {k : Tag} (op : Arithmetic) {a b : Value} (ha : k.Allows a)
    (hb : k.Allows b) : k.Allows (Value.arithmetic op a b) := by
  intro kind hkind
  have htemporal := Tag.kind_notTemporal hkind
  rcases arithmetic_cases op a b with hnull | ⟨hatext, -, htext⟩ | ⟨hanumber, -, hnumber⟩ | htime
  · exact .inr hnull
  · rcases ha kind hkind with hka | hka
    · exact .inl (htext.trans (hatext.symm.trans hka))
    · rw [hatext] at hka
      cases hka
  · rcases ha kind hkind with hka | hka
    · exact .inl (hnumber.trans (hanumber.symm.trans hka))
    · rw [hanumber] at hka
      cases hka
  · -- neither operand has a kind in time
    exfalso
    rcases htime with htime | htime
    · rcases ha kind hkind with hka | hka <;> simp_all [Value.Kind.isTemporal]
    · rcases hb kind hkind with hkb | hkb <;> simp_all [Value.Kind.isTemporal]

/-- The operand of a sign alone decides: with a number before it, all but a number gives null. -/
theorem signed_allows {k : Tag} (op : Arithmetic) (i : Int) {v : Value} (hv : k.Allows v) :
    k.Allows (Value.arithmetic op (.whole i) v) := by
  intro kind hkind
  have htemporal := Tag.kind_notTemporal hkind
  rcases arithmetic_cases op (.whole i) v with hnull | ⟨htext, -⟩ | ⟨-, hvnumber, hnumber⟩ | htime
  · exact .inr hnull
  · -- the number before it is no text
    cases htext
  · rcases hv kind hkind with hkv | hkv
    · exact .inl (hnumber.trans (hvnumber.symm.trans hkv))
    · rw [hvnumber] at hkv
      cases hkv
  · exfalso
    rcases htime with htime | htime
    · cases htime
    · rcases hv kind hkind with hkv | hkv <;> simp_all [Value.Kind.isTemporal]

/-! ## Expressions -/

/-- **The value of an expression is one that its tag allows.** The induction follows the expressions
whose tag is that of their parts; all others have a tag that their own form decides. -/
theorem eval_allows (registry : Fields) : ∀ (e : Expr) (k : Tag), e.tag = some k →
    ∀ (scope : Scope) (v : Value), (e.eval registry scope).outcome = .ok v → k.Allows v
  | .boolean b, k, hk, scope, v, hv => by
    cases hk
    cases hv
    exact Tag.allows_of_kind rfl
  | .number n, k, hk, scope, v, hv => by
    cases hk
    cases hv
    exact Tag.allows_of_kind rfl
  | .text s, k, hk, scope, v, hv => by
    cases hk
    cases hv
    exact Tag.allows_of_kind rfl
  | .unary op a, k, hk, scope, v, hv => by
    obtain ⟨w, hw, hv⟩ := Run.bind_outcome_ok hv
    cases hv
    have hoperand : k.Allows w := eval_allows registry a k hk scope w hw
    exact signed_allows op 0 hoperand
  | .arithmetic op a b, k, hk, scope, v, hv => by
    obtain ⟨x, hx, hv⟩ := Run.bind_outcome_ok hv
    obtain ⟨y, hy, hv⟩ := Run.bind_outcome_ok hv
    cases hv
    obtain rfl : Tag.join a.tag b.tag = k := Option.some.inj hk
    rcases Tag.join_cases a.tag b.tag with hany | ⟨ha, hb⟩
    · exact Tag.allows_of_none (by rw [hany]; rfl) _
    · exact arithmetic_allows op (eval_allows registry a _ ha scope x hx)
        (eval_allows registry b _ hb scope y hy)
  | .choose condition yes (some no), k, hk, scope, v, hv => by
    obtain rfl : Tag.join yes.tag no.tag = k := Option.some.inj hk
    rcases Tag.join_cases yes.tag no.tag with hany | ⟨hyes, hno⟩
    · exact Tag.allows_of_none (by rw [hany]; rfl) _
    · obtain ⟨c, -, hv⟩ := Run.bind_outcome_ok hv
      -- one of the branches is run, and both have the tag
      split at hv
      · exact eval_allows registry yes _ hyes scope v hv
      · exact eval_allows registry no _ hno scope v hv
  | .choose _ _ none, k, hk, _, _, _ => by
    cases hk
    exact Tag.allows_of_none rfl _
  | .disjunction .., k, hk, _, _, _ | .conjunction .., k, hk, _, _, _
  | .instanceOf .., k, hk, _, _, _ | .quantified .., k, hk, _, _, _ | .test .., k, hk, _, _, _
  | .interval .., k, hk, _, _, _ => by
    cases hk
    exact Tag.allows_of_none rfl _

theorem Artifact.eval_allows {a : Artifact} {k : Tag} (hk : a.tag = some k) {registry : Fields}
    {scope : Scope} {v : Value} (hv : (a.eval registry scope).outcome = .ok v) : k.Allows v := by
  cases a with
  | expr e => exact Criterion.eval_allows registry e k hk scope v hv
  | relation | quantifier | tests =>
    cases hk
    exact Tag.allows_of_none rfl v
  | text | arithmetic | entry | binding | bindings | arguments => cases hk

/-- **Tags are sound.** Whenever a part of the tree of a source is built into something with a tag
that stands for a kind, its value, in any scope in which it has one, is of this kind or null. -/
theorem tags_sound (unary : Bool) (source : String) (t : Tree) :
    parse unary source = .ok t → ∀ u ∈ t.preorder, ∀ a, (u.build source).outcome = .ok (some a) →
      ∀ k, a.tag = some k → ∀ registry scope v, (a.eval registry scope).outcome = .ok v →
        k.Allows v := by
  intro _ u _ a _ k hk registry scope v hv
  exact a.eval_allows hk hv

theorem tags_sound_of_sign : ∃ t u a, parse false "-1" = .ok t ∧ u ∈ t.preorder ∧
    (u.build "-1").outcome = .ok (some a) ∧ a.tag = some .number ∧
      (a.eval [] (.ofFields [])).outcome = .ok (.whole (-1)) ∧ Tag.number.Allows (.whole (-1)) := by
  let u : Tree := .node .arithmeticExpression (some ⟨0, 2⟩)
    [.token ⟨.minus, "-", some ⟨0, 1⟩⟩, .token ⟨.number, "1", some ⟨1, 2⟩⟩]
  let t : Tree := .node .expressions (some ⟨0, 2⟩) [u]
  let a : Artifact := .expr (.unary .minus (.number (.whole 1)))
  have ht : parse false "-1" = .ok t := by rfl
  have hu : u ∈ t.preorder := List.mem_cons_of_mem _ List.mem_cons_self
  have ha : (u.build "-1").outcome = .ok (some a) := by rfl
  have hv : (a.eval [] (.ofFields [])).outcome = .ok (.whole (-1)) := by rfl
  exact ⟨t, u, a, ht, hu, ha, rfl, hv, tags_sound false _ t ht u hu a ha .number rfl _ _ _ hv⟩

end Criterion

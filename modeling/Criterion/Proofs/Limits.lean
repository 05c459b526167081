import Criterion.Proofs.Carried

/-!
# How functions fail

The functions of values and numbers fail in few ways. Numbers have limits: an integer may be too large for
a fraction, an infinite fraction has no integer, and an integer may have too many digits to be shown. All
other failures of builtins are announced to the user.

* `FailsAs`: a computation fails only in ways that are allowed.
* `Ends`: and otherwise its result is as told.
* `apply_fails`, `call_fails`: **what builtins and calls fail with.**
* `shown_fails`: a value cannot be shown if an integer in it has too many digits.
* `includes_fails`: an interval of numbers may not reach a large integer.
-/

namespace Criterion

/-! ## Ways to fail -/

/-- A failure that is announced to the user, under a name and with a message. -/
def Failure.Documented (f : Failure) : Prop := f.report?.isSome = true

instance (f : Failure) : Decidable f.Documented := inferInstanceAs (Decidable (_ = true))

/-- A computation fails only in ways that are allowed. -/
def FailsAs {α : Type} (R : Failure → Prop) (x : Except Failure α) : Prop := ∀ f, x = .error f → R f

/-- A computation fails only in ways that are allowed, and its result is as told. -/
structure Ends {α : Type} (R : Failure → Prop) (Q : α → Prop) (x : Except Failure α) : Prop where
  fails : FailsAs R x
  gives : ∀ a, x = .ok a → Q a

section Ways

variable {ε α β : Type} {R : Failure → Prop} {Q : α → Prop} {Q' : β → Prop}

namespace FailsAs

theorem ok (a : α) : FailsAs R (.ok a) := by
  intro f h
  cases h

theorem error {f : Failure} (h : R f) : FailsAs R (.error f : Except Failure α) := by
  intro g hg
  cases hg
  exact h

theorem mono {R' : Failure → Prop} {x : Except Failure α} (hx : FailsAs R x)
    (h : ∀ f, R f → R' f) : FailsAs R' x := fun f hf => h f (hx f hf)

theorem bind {x : Except Failure α} {k : α → Except Failure β} (hx : FailsAs R x)
    (hk : ∀ a, x = .ok a → FailsAs R (k a)) : FailsAs R (x >>= k) := by
  cases x with
  | error f => exact error (hx f rfl)
  | ok a => exact hk a rfl

theorem map {x : Except Failure α} (hx : FailsAs R x) (k : α → β) : FailsAs R (x.map k) := by
  cases x with
  | error f => exact error (hx f rfl)
  | ok a => exact ok (k a)

theorem bindRun {r : Run ε α} {k : α → Run ε β} (hr : FailsAs R r.outcome)
    (hk : ∀ a, r.outcome = .ok a → FailsAs R (k a).outcome) : FailsAs R (r >>= k).outcome := by
  rw [Run.bind_outcome]
  exact hr.bind hk

end FailsAs

namespace Ends

theorem ok {a : α} (h : Q a) : Ends R Q (.ok a) := by
  refine ⟨FailsAs.ok a, fun b hb => ?_⟩
  cases hb
  exact h

theorem error {f : Failure} (h : R f) : Ends R Q (.error f) := by
  refine ⟨FailsAs.error h, fun b hb => ?_⟩
  cases hb

/-- What comes after a result that is as told. -/
theorem bind {r : Run ε α} {k : α → Run ε β} (hr : Ends R Q r.outcome)
    (hk : ∀ a, Q a → Ends R Q' (k a).outcome) : Ends R Q' (r >>= k).outcome := by
  rw [Run.bind_outcome]
  cases hout : r.outcome with
  | error f => exact error (hr.fails f hout)
  | ok a => exact hk a (hr.gives a hout)

end Ends

end Ways

/-! ## Numbers -/

section Numbers

variable {R : Failure → Prop} {a b n : Number}

theorem toReal_fails (h : R .overflow) (n : Number) : FailsAs R n.toReal := by
  cases n with
  | real x => exact .ok x
  | whole i =>
    unfold Number.toReal
    dsimp only
    split
    · exact .ok _
    · exact .error h

theorem combine_fails (h : R .overflow) (onWhole : Int → Int → Int)
    (onReal : Binary64 → Binary64 → Binary64) (a b : Number) :
    FailsAs R (Number.combine onWhole onReal a b) := by
  unfold Number.combine
  split
  · exact .ok _
  · exact (toReal_fails h _).bind fun _ _ => (toReal_fails h _).bind fun _ _ => .ok _

theorem div_fails (h : R .overflow) (a b : Number) : FailsAs R (a.div b) := by
  unfold Number.div
  split
  · dsimp only
    split
    · exact .ok _
    · exact .error h
  · exact (toReal_fails h _).bind fun _ _ => (toReal_fails h _).bind fun _ _ => .ok _

theorem toWhole_fails (h : R .overflow) (hnan : R .notANumber) (ofUnits : Int → Int) (n : Number) :
    FailsAs R (n.toWhole ofUnits) := by
  unfold Number.toWhole
  split
  · exact .ok _
  · exact .error hnan
  · exact .error h
  · exact .ok _

theorem round_fails (h : R .overflow) (n : Number) (places : Int) : FailsAs R (n.round places) := by
  cases n with
  | whole i => exact .ok _
  | real x =>
    have hround : FailsAs R (Number.roundReal x places) := by
      unfold Number.roundReal
      split
      · split
        · exact .ok _
        · split
          · exact .ok _
          · dsimp only
            split
            · exact .ok _
            · exact .error h
      · exact .ok _
    exact hround.map _

theorem text_fails (h : R .tooManyDigits) (n : Number) : FailsAs R n.text := by
  cases n with
  | real x => exact .ok _
  | whole i =>
    unfold Number.text
    dsimp only
    split
    · exact .ok _
    · exact .error h

end Numbers

/-! ## Values -/

section Values

variable {R : Failure → Prop}

mutual

/-- A value cannot be shown only if an integer in it has too many digits. -/
theorem shown_fails (h : R .tooManyDigits) : ∀ v : Value, FailsAs R v.shown
  | .number n => text_fails h n
  | .list items => by
    unfold Value.shown
    exact (shownItems_fails h items).bind fun _ _ => .ok _
  | .context fields => by
    unfold Value.shown
    exact (shownFields_fails h fields).bind fun _ _ => .ok _
  | .null | .boolean _ | .text _ | .date _ | .time _ | .moment _ | .duration _ | .zone _
  | .function _ | .method .. | .probe _ | .procedure => .ok _

theorem shownItems_fails (h : R .tooManyDigits) : ∀ items : List Value,
    FailsAs R (Value.shownItems items)
  | [] => .ok _
  | v :: rest => by
    unfold Value.shownItems
    exact (shown_fails h v).bind fun _ _ => (shownItems_fails h rest).bind fun _ _ => .ok _

theorem shownFields_fails (h : R .tooManyDigits) : ∀ fields : Fields,
    FailsAs R (Value.shownFields fields)
  | [] => .ok _
  | (k, v) :: rest => by
    unfold Value.shownFields
    exact (shown_fails h v).bind fun _ _ => (shownFields_fails h rest).bind fun _ _ => .ok _

end

theorem plainText_fails (h : R .tooManyDigits) (v : Value) : FailsAs R v.plainText := by
  cases v with
  | text | date | time | moment | duration | zone => exact .ok _
  | _ => exact shown_fails h _

/-- A bad range is announced, if its bounds can be shown. -/
theorem range_fails (hdocumented : ∀ f : Failure, f.Documented → R f) (h : R .tooManyDigits)
    (v w : Value) : FailsAs R (v.range w) := by
  unfold Value.range
  split
  · exact .ok _
  · refine (shown_fails h v).bind fun low _ => (shown_fails h w).bind fun high _ => ?_
    exact .error (hdocumented _ rfl)

theorem domainOf_fails (hdocumented : ∀ f : Failure, f.Documented → R f) (h : R .tooManyDigits)
    (name : String) (v : Value) : FailsAs R (domainOf name v) := by
  unfold domainOf
  split
  · exact .ok _
  · exact (shown_fails h _).bind fun _ _ => .error (hdocumented _ rfl)

/-- Moving a bound or comparing with one may meet an integer that is too large for a fraction. -/
theorem includes_fails (h : R .overflow) (i : Interval Value) (v : Value) :
    FailsAs R (i.includes v) := by
  have hnumber : ∀ a b n : Number,
      FailsAs R (Interval.includesNumber a b i.includesStart i.includesStop n) := by
    intro a b n
    have hmoved : ∀ (bound : Number) (includes : Bool) (inwards : Int),
        FailsAs R (bound.movedBound includes inwards) := by
      intro bound includes inwards
      unfold Number.movedBound
      split
      · exact combine_fails h _ _ _ _
      · exact (combine_fails h _ _ _ _).bind fun _ _ => combine_fails h _ _ _ _
    unfold Interval.includesNumber Number.direction
    refine FailsAs.bind ((combine_fails h _ _ _ _).bind fun _ _ => .ok _) fun _ _ => ?_
    exact (hmoved _ _ _).bind fun _ _ => (hmoved _ _ _).bind fun _ _ => .ok _
  unfold Interval.includes
  split
  · exact .ok _
  · exact .ok _
  · exact .ok _
  · exact (hnumber _ _ _).map _
  · exact .ok _

/-- A position may be a fraction that has no integer. -/
theorem atPosition_fails (h : R .overflow) (hnan : R .notANumber) (items : List Value) (v : Value) :
    FailsAs R (Value.atPosition items v) := by
  unfold Value.atPosition
  split
  · refine (toWhole_fails h hnan _ _).bind fun i _ => ?_
    dsimp only
    split <;> exact .ok _
  · exact .ok _

end Values

/-! ## Builtins -/

section Builtins

variable {R : Failure → Prop}

theorem sum_fails (h : R .overflow) (ns : List Number) : FailsAs R (Library.sum ns) := by
  have hfold : ∀ (ns : List Number) (start : Number), FailsAs R (ns.foldlM Number.add start) := by
    intro ns
    induction ns with
    | nil => exact fun _ => .ok _
    | cons n ns ih =>
      intro start
      rw [List.foldlM_cons]
      exact (combine_fails h _ _ start n).bind fun total _ => ih total
  exact hfold ns _

theorem mean_fails (h : R .overflow) (ns : List Number) : FailsAs R (Library.mean ns) :=
  (sum_fails h ns).bind fun _ _ => div_fails h _ _

theorem orNull_fails {f : List Number → Except Failure Number} (hf : ∀ ns, FailsAs R (f ns))
    (ns : Option (List Number)) : FailsAs R (Builtin.apply.orNull ns f) := by
  cases ns with
  | none => exact .ok _
  | some ns => exact (hf ns).map _

theorem decimal_fails (h : R .overflow) (hnan : R .notANumber) (n places : Value) :
    FailsAs R (Library.decimal n places) := by
  unfold Library.decimal
  split
  · refine (toWhole_fails h hnan _ _).bind fun i _ => ?_
    split
    · exact (round_fails h _ i).bind fun _ _ => .ok _
    · exact .ok _
  · exact .ok _

theorem substring_fails (h : R .overflow) (hnan : R .notANumber) (s start length : Value) :
    FailsAs R (Library.substring s start length) := by
  have hoffset : ∀ (s : String) (p : Number), FailsAs R (Library.substring.offset s p) :=
    fun _ _ => (toWhole_fails h hnan _ _).bind fun _ _ => .ok _
  unfold Library.substring
  split
  · split
    · exact .ok _
    · split
      · exact (hoffset _ _).bind fun _ _ => .ok _
      · split
        · exact .ok _
        · refine (hoffset _ _).bind fun _ _ => ?_
          exact (toWhole_fails h hnan _ _).bind fun _ _ => .ok _
      · exact .ok _
  · exact .ok _

theorem string_fails (h : R .tooManyDigits) (v : Value) : FailsAs R (Library.string v) := by
  unfold Library.string
  split
  · exact .ok _
  · exact .ok _
  · exact (plainText_fails h _).map _

/-- A date takes one argument or three, and its parts must not be too large for a call of the calendar. -/
theorem date_fails (hdocumented : ∀ f : Failure, f.Documented → R f) (h : R .overflow)
    (hnan : R .notANumber) (arguments : List Value) : FailsAs R (Library.date arguments) := by
  have hwholes : ∀ parts : List Number, FailsAs R (parts.mapM Number.truncate) := by
    intro parts
    induction parts with
    | nil => exact .ok _
    | cons n parts ih =>
      rw [List.mapM_cons]
      exact (toWhole_fails h hnan _ _).bind fun _ _ => ih.bind fun _ _ => .ok _
  have hparts : ∀ parts : List Number, FailsAs R (Library.dateOfParts parts) := by
    intro parts
    unfold Library.dateOfParts
    split
    · exact .ok _
    · rename_i f hf
      exact .error (hwholes parts _ hf)
    · split
      · exact .error h
      · split
        · split <;> exact .ok _
        · exact .ok _
  unfold Library.date
  split
  · exact .ok _
  · split
    · exact hparts _
    · exact .ok _
  · exact .error (hdocumented _ rfl)

/-- **What a builtin fails with**: a limit of numbers, or a wrong number of arguments, which is
announced. -/
theorem apply_fails (hdocumented : ∀ f : Failure, f.Documented → R f) (h : R .overflow)
    (hnan : R .notANumber) (hdigits : R .tooManyDigits) (b : Builtin) (arguments : List Value) :
    FailsAs R (b.apply arguments) := by
  unfold Builtin.apply
  split
  all_goals first
    | exact .ok _
    | exact (toWhole_fails h hnan _ _).map _
    | exact decimal_fails h hnan _ _
    | exact substring_fails h hnan _ _ _
    | exact string_fails hdigits _
    | exact orNull_fails (sum_fails h) _
    | exact orNull_fails (mean_fails h) _
    | exact date_fails hdocumented h hnan _
    | exact .error (hdocumented _ rfl)

end Builtins

/-! ## Calls -/

/-- A probe fails only in ways that are allowed, whatever it is matched against. -/
def Probe.FailsAs (R : Failure → Prop) (p : Probe Value) : Prop :=
  ∀ v, Criterion.FailsAs R (p.match v).outcome

section Calls

variable {R : Failure → Prop} {v : Value}

/-- A comparison fails if its operand does. -/
theorem relation_fails {site : Nat} {op : Relation} {operand : Eval Value} {reports : Bool}
    (h : FailsAs R operand.outcome) : (Probe.relation site op operand reports).FailsAs R :=
  fun _ => h.bindRun fun _ _ => .ok _

theorem interval_fails (h : R .overflow) (site : Nat) (bounds : Interval Value) (reports : Bool) :
    (Probe.interval site bounds reports).FailsAs R :=
  fun _ => FailsAs.bindRun (includes_fails h _ _) fun _ _ => .ok _

theorem check_fails (hdocumented : ∀ f : Failure, f.Documented → R f) (arity : Arity) (name : String)
    (given : Nat) : FailsAs R (arity.check name given) := by
  unfold Arity.check
  split
  · split
    · exact .ok _
    · exact .error (hdocumented _ rfl)
  · split
    · exact .ok _
    · exact .error (hdocumented _ rfl)

/-- The limits that a call may meet. -/
def callLimits : List Failure :=
  [.overflow, .notANumber, .tooManyDigits, .misusedCall, .absentPlace, .absentItem, .beyond]

theorem listMethod_fails (habsent : R .absentItem) (hbeyond : R .beyond) (items : List Value)
    (name : String) (arguments : List Value) : FailsAs R (Value.listMethod items name arguments) := by
  unfold Value.listMethod
  split
  · rename_i u
    split
    · exact .ok _
    · cases items.findIdx? (·.eqv u) with
      | none => exact .error habsent
      | some i => exact .ok _
    · exact .error hbeyond
  · exact .error hbeyond

theorem callBody_fails (hdocumented : ∀ f : Failure, f.Documented → R f) (hlimits : ∀ f ∈ callLimits, R f)
    (f : Function) (arguments : List Value) : FailsAs R (Value.callBody f arguments) := by
  have hbeyond : R .beyond := hlimits _ (by decide)
  unfold Value.callBody
  split
  · split
    · exact apply_fails hdocumented (hlimits _ (by decide)) (hlimits _ (by decide)) (hlimits _ (by decide)) _ _
    · exact .error hbeyond
  · exact .error hbeyond
  · exact .error (hlimits _ (by decide))

/-- What a value's own function fails with: the misuse of its arguments, an element that is not there, what
values do not tell, or what a builtin fails with whose body it is. -/
theorem callMethod_fails (hdocumented : ∀ f : Failure, f.Documented → R f) (hlimits : ∀ f ∈ callLimits, R f)
    (receiver : Value) (name : String) (arguments : List Value) :
    FailsAs R (receiver.callMethod name arguments) := by
  have hmisused : R .misusedCall := hlimits _ (by decide)
  have habsent : R .absentItem := hlimits _ (by decide)
  have hbeyond : R .beyond := hlimits _ (by decide)
  unfold Value.callMethod
  split
  · unfold Value.answerAlone
    split
    · exact .ok _
    · exact .error hmisused
  unfold Value.argumentMethod
  split
  · unfold Value.textMethod
    split
    · split
      · exact .ok _
      · exact .ok _
      · exact .error hbeyond
    all_goals first
      | exact .error hbeyond
      | split
        · exact .error hmisused
        · exact .error hbeyond
  · split
    · exact .ok _
    · exact .error hbeyond
  · split
    · exact .ok _
    · exact .error hbeyond
  · unfold Value.zoneMethod
    split
    · exact .error hbeyond
    split
    · exact .ok _
    · exact .ok _
    · exact .error hmisused
  · split
    · exact listMethod_fails habsent hbeyond _ _ _
    · exact .error hmisused
  · exact callBody_fails hdocumented hlimits _ _
  · exact .error hbeyond

/-- **What a call fails with**: what its builtin fails with, what the test that is called fails with, or
what a value's own function fails with. -/
theorem call_fails (hdocumented : ∀ f : Failure, f.Documented → R f) (hlimits : ∀ f ∈ callLimits, R f)
    (hv : v.Carries (·.FailsAs R)) (arguments : List Value) : FailsAs R (v.call arguments).outcome := by
  have hoverflow : R .overflow := hlimits _ (by decide)
  have hnan : R .notANumber := hlimits _ (by decide)
  have hdigits : R .tooManyDigits := hlimits _ (by decide)
  have hmisused : R .misusedCall := hlimits _ (by decide)
  unfold Value.call
  split
  · refine FailsAs.bindRun (check_fails hdocumented _ _ _) fun _ _ => ?_
    exact apply_fails hdocumented hoverflow hnan hdigits _ _
  · exact FailsAs.bindRun (check_fails hdocumented _ _ _) fun _ _ => .ok _
  · exact FailsAs.bindRun (.ok _) fun _ _ => .ok _
  · exact callMethod_fails hdocumented hlimits _ _ _
  · split
    · exact hv _
    · exact .error hmisused
  · exact .error (hlimits _ (by decide))
  · exact .error hmisused

/-- Matching a value against the tests of a list fails only as the tests do. -/
theorem passesAny_fails (v : Value) {tests : List Value} (h : ∀ t ∈ tests, t.Carries (·.FailsAs R)) :
    FailsAs R (v.passesAny tests).outcome := by
  induction tests with
  | nil => exact .ok _
  | cons test rest ih =>
    obtain ⟨htest, hrest⟩ := List.forall_mem_cons.1 h
    have hpasses : FailsAs R (v.passes test).outcome := by
      unfold Value.passes
      split
      · exact FailsAs.bindRun (htest v) fun _ _ => .ok _
      · exact .ok _
    unfold Value.passesAny
    refine hpasses.bindRun fun passed _ => ?_
    split
    · exact .ok _
    · exact ih hrest

end Calls

end Criterion

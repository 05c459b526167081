import Criterion.Proofs.Agreement

/-!
# What values carry

A value carries probes as elements of lists and as fields of contexts, in any depth. Evaluation makes new
probes in two places only, tests and intervals; everything else takes apart and puts together values that
are there already, or makes data.

* `Value.Carries`: all probes in a value have a property.
* `apply_carries`, `match_carries`, `call_carries`: **what functions answer carries the probes of their
  arguments.**
* `Scope.Carries`: so do the values of a scope; loops and filters go through such scopes.
-/

namespace Criterion

variable {P : Probe Value → Prop}

namespace Value

mutual

/-- All probes in the value have a property, in any depth. -/
def Carries (P : Probe Value → Prop) : Value → Prop
  | .list items => CarriesItems P items
  | .context fields => CarriesFields P fields
  | .probe p => P p
  | _ => True

def CarriesItems (P : Probe Value → Prop) : List Value → Prop
  | [] => True
  | v :: rest => Carries P v ∧ CarriesItems P rest

def CarriesFields (P : Probe Value → Prop) : List (String × Value) → Prop
  | [] => True
  | (_, v) :: rest => Carries P v ∧ CarriesFields P rest

end

@[simp] theorem carries_list {items : List Value} :
    (Value.list items).Carries P ↔ ∀ v ∈ items, v.Carries P := by
  have hitems : ∀ items : List Value, CarriesItems P items ↔ ∀ v ∈ items, v.Carries P := by
    intro items
    induction items with
    | nil => simp [CarriesItems]
    | cons v rest ih => simp [CarriesItems, ih]
  exact hitems items

@[simp] theorem carries_context {fields : Fields} :
    (Value.context fields).Carries P ↔ ∀ p ∈ fields, p.2.Carries P := by
  have hfields : ∀ fields : Fields, CarriesFields P fields ↔ ∀ p ∈ fields, p.2.Carries P := by
    intro fields
    induction fields with
    | nil => simp [CarriesFields]
    | cons p rest ih => simp [CarriesFields, ih]
  exact hfields fields

@[simp] theorem carries_probe {p : Probe Value} : (Value.probe p).Carries P ↔ P p := Iff.rfl

@[simp] theorem carries_null : Value.null.Carries P := trivial

@[simp] theorem carries_boolean (b : Bool) : (Value.boolean b).Carries P := trivial

@[simp] theorem carries_number (n : Number) : (Value.number n).Carries P := trivial

@[simp] theorem carries_whole (i : Int) : (Value.whole i).Carries P := trivial

@[simp] theorem carries_text (s : String) : (Value.text s).Carries P := trivial

@[simp] theorem carries_procedure : Value.procedure.Carries P := trivial

@[simp] theorem carries_method (v : Value) (name : String) : (Value.method v name).Carries P := trivial

/-! ### Kinds -/

theorem null_of_kind {v : Value} (h : v.kind = .null) : v = .null := by
  cases v with
  | null => rfl
  | function f => cases f <;> cases h
  | method receiver _ => cases receiver <;> cases h
  | _ => cases h

theorem boolean_of_kind {v : Value} (h : v.kind = .boolean) : ∃ b, v = .boolean b := by
  cases v with
  | boolean b => exact ⟨b, rfl⟩
  | function f => cases f <;> cases h
  | method receiver _ => cases receiver <;> cases h
  | _ => cases h

theorem number_of_kind {v : Value} (h : v.kind = .number) : ∃ n, v = .number n := by
  cases v with
  | number n => exact ⟨n, rfl⟩
  | function f => cases f <;> cases h
  | method receiver _ => cases receiver <;> cases h
  | _ => cases h

theorem list_of_kind {v : Value} (h : v.kind = .list) : ∃ items, v = .list items := by
  cases v with
  | list items => exact ⟨items, rfl⟩
  | function f => cases f <;> cases h
  | method receiver _ => cases receiver <;> cases h
  | _ => cases h

theorem context_of_kind {v : Value} (h : v.kind = .context) : ∃ fields, v = .context fields := by
  cases v with
  | context fields => exact ⟨fields, rfl⟩
  | function f => cases f <;> cases h
  | method receiver _ => cases receiver <;> cases h
  | _ => cases h

/-- Lists, contexts, functions of values and probes: the values that others lie in. -/
def isNested (v : Value) : Bool := v.kind ∈ [Kind.list, .context, .method, .probe]

/-- Data carries nothing. -/
theorem carries_of_flat {v : Value} (h : v.isNested = false) : v.Carries P := by
  cases v with
  | list _ | context _ | probe _ => cases h
  | _ => trivial

theorem carries_ofOption {o : Option Value} (h : ∀ v ∈ o, v.Carries P) : (Value.ofOption o).Carries P := by
  cases o with
  | none => exact carries_null
  | some v => exact h v rfl

/-- Results of one kind of data. -/
theorem flat_ofOption_map {α : Type} (o : Option α) {f : α → Value} (hf : ∀ a, (f a).isNested = false) :
    (Value.ofOption (o.map f)).isNested = false := by
  cases o with
  | none => rfl
  | some a => exact hf a

mutual

theorem Carries.mono {Q : Probe Value → Prop} (h : ∀ p, P p → Q p) :
    ∀ v : Value, v.Carries P → v.Carries Q
  | .list items, hv => carries_list.2 (carriesItems_mono h items (carries_list.1 hv))
  | .context fields, hv => carries_context.2 (carriesFields_mono h fields (carries_context.1 hv))
  | .probe p, hv => h p hv
  | .null, _ | .boolean _, _ | .number _, _ | .text _, _ | .date _, _ | .time _, _ | .moment _, _
  | .duration _, _ | .zone _, _ | .function _, _ | .method .., _ | .procedure, _ => trivial

theorem carriesItems_mono {Q : Probe Value → Prop} (h : ∀ p, P p → Q p) :
    ∀ items : List Value, (∀ v ∈ items, v.Carries P) → ∀ v ∈ items, v.Carries Q
  | [], _ => List.forall_mem_nil _
  | v :: rest, hitems => by
    obtain ⟨hv, hrest⟩ := List.forall_mem_cons.1 hitems
    exact List.forall_mem_cons.2 ⟨Carries.mono h v hv, carriesItems_mono h rest hrest⟩

theorem carriesFields_mono {Q : Probe Value → Prop} (h : ∀ p, P p → Q p) :
    ∀ fields : List (String × Value), (∀ p ∈ fields, p.2.Carries P) → ∀ p ∈ fields, p.2.Carries Q
  | [], _ => List.forall_mem_nil _
  | (_, v) :: rest, hfields => by
    obtain ⟨hv, hrest⟩ := List.forall_mem_cons.1 hfields
    exact List.forall_mem_cons.2 ⟨Carries.mono h v hv, carriesFields_mono h rest hrest⟩

end

theorem flat_of_map {α : Type} {x : Except Failure α} {f : α → Value} {v : Value}
    (h : x.map f = .ok v) (hf : ∀ a, (f a).isNested = false) : v.isNested = false := by
  cases x with
  | error e => cases h
  | ok a =>
    cases h
    exact hf a

end Value

open Value

/-! ## Functions -/

section Functions

variable {vs : List Value} {v w : Value}

theorem temporal_flat {op : Arithmetic} {a b : Value} (h : Value.temporal? op a b = some v) :
    v.isNested = false := by
  cases op with
  | power => cases h
  | _ =>
    simp only [Value.temporal?, Value.temporalSum?, Value.temporalDifference?,
      Value.temporalProduct?, Value.temporalQuotient?] at h
    split at h
    -- where there is a result it is made of a day, a moment, a span or a ratio
    all_goals first
      | obtain ⟨_, -, rfl⟩ := Option.map_eq_some_iff.1 h
      | cases h
    all_goals rfl

/-- Arithmetic makes data only. -/
theorem arithmetic_flat (op : Arithmetic) (a b : Value) : (Value.arithmetic op a b).isNested = false := by
  unfold Value.arithmetic
  split
  · rfl
  split
  · split <;> rfl
  · exact flat_ofOption_map _ fun _ => rfl
  · cases htemporal : Value.temporal? op a b with
    | none => rfl
    | some v => exact temporal_flat htemporal

/-- What a context has under a key is one of its values. -/
theorem mem_of_get {fields : Fields} {key : String} (h : fields.get? key = some v) :
    (key, v) ∈ fields := by
  obtain ⟨before, after, rfl, -⟩ := List.lookup_eq_some_iff.1 h
  exact List.mem_append_right _ List.mem_cons_self

/-- The fields of values other than contexts are data. -/
theorem flat_of_ownField {name : String} (h : v.ownField? name = some w) : w.isNested = false := by
  have hscale : ∀ {first last : Value} {step : Duration}, first.isNested = false → last.isNested = false →
      Value.scaleField? first last step name = some w → w.isNested = false := by
    intro first last step hfirst hlast h
    unfold Value.scaleField? at h
    split at h <;> cases h
    · exact hfirst
    · exact hlast
    · rfl
  have hdate : ∀ {d : Date}, Value.dateParts? d name = some w → w.isNested = false := by
    intro d h
    unfold Value.dateParts? at h
    split at h <;> cases h <;> rfl
  have htime : ∀ {t : Time}, Value.timeParts? t name = some w → w.isNested = false := by
    intro t h
    unfold Value.timeParts? at h
    split at h <;> cases h
    case h_6 => cases t.offset <;> rfl
    all_goals rfl
  have hnumber : ∀ {n : Number}, Value.numberField? n name = some w → w.isNested = false := by
    intro n h
    unfold Value.numberField? at h
    split at h <;> cases h <;> rfl
  unfold Value.ownField? at h
  split at h
  · exact hnumber h
  · exact hnumber h
  · exact (Option.or_eq_some_iff.1 h).elim hdate fun h => hscale rfl rfl h.2
  · exact (Option.or_eq_some_iff.1 h).elim htime fun h => hscale rfl rfl h.2
  · rcases Option.or_eq_some_iff.1 h with h | ⟨-, h⟩
    · exact (Option.or_eq_some_iff.1 h).elim hdate fun h => htime h.2
    · exact hscale rfl rfl h
  · rcases Option.or_eq_some_iff.1 h with h | ⟨-, h⟩
    · unfold Value.durationParts? at h
      split at h <;> cases h <;> rfl
    · exact hscale rfl rfl h
  · unfold Value.zoneField? at h
    split at h <;> cases h <;> rfl
  · rename_i f
    unfold Value.functionField? at h
    split at h <;> cases h
    case h_3 => cases f.arity.exact <;> rfl
    all_goals rfl
  · cases h

/-- The field of a value is a field of a context, or data or a function of its own. -/
theorem field_carries (h : v.Carries P) (name : String) : (v.field name).Carries P := by
  unfold Value.field
  split
  · exact carries_ofOption fun w hw => carries_context.1 h _ (mem_of_get hw)
  · split
    · exact carries_null
    split
    · exact carries_method _ _
    · exact carries_ofOption fun w hw => carries_of_flat (flat_of_ownField hw)

theorem fieldOrFields_carries (h : v.Carries P) (name : String) : (v.fieldOrFields name).Carries P := by
  unfold Value.fieldOrFields
  split
  · rw [carries_list] at h ⊢
    intro w hw
    obtain ⟨u, hu, rfl⟩ := List.mem_map.1 hw
    exact field_carries (h u hu) name
  · exact field_carries h name

/-- A chain of fields. -/
theorem foldl_field_carries (names : List String) (h : v.Carries P) :
    (names.foldl Value.fieldOrFields v).Carries P := by
  induction names generalizing v with
  | nil => exact h
  | cons name names ih => exact ih (fieldOrFields_carries h name)

theorem ok_of_bind {α β : Type} {x : Except Failure α} {f : α → Except Failure β} {b : β}
    (h : (x >>= f) = .ok b) : ∃ a, f a = .ok b := by
  cases x with
  | error e => cases h
  | ok a => exact ⟨a, h⟩

/-! ### Functions that answer with a list -/

section Lists

variable {ws rest : List Value}

theorem append_carries (h : ∀ w ∈ Value.list ws :: rest, w.Carries P) : (Value.list (ws ++ rest)).Carries P := by
  obtain ⟨hws, hrest⟩ := List.forall_mem_cons.1 h
  exact carries_list.2 (List.forall_mem_append.2 ⟨carries_list.1 hws, hrest⟩)

theorem reverse_carries (h : ∀ w ∈ [Value.list ws], w.Carries P) : (Value.list ws.reverse).Carries P := by
  have hws := carries_list.1 (List.forall_mem_singleton.1 h)
  exact carries_list.2 fun w hw => hws w (List.mem_reverse.1 hw)

theorem positions_carries (w : Value) (ws : List Value) :
    (Value.list ((Library.positions w 1 ws).map fun i : Nat => .whole i)).Carries P := by
  refine carries_list.2 fun u hu => ?_
  obtain ⟨i, -, rfl⟩ := List.mem_map.1 hu
  exact carries_whole _

theorem distinct_carries (h : ∀ w ∈ [Value.list ws], w.Carries P) :
    (Value.list (Library.distinct ws)).Carries P := by
  have hfold : ∀ us kept : List Value, (∀ u ∈ us, u.Carries P) → (∀ u ∈ kept, u.Carries P) →
      ∀ u ∈ us.foldl (fun kept v => if v.isAmong kept then kept else kept ++ [v]) kept, u.Carries P := by
    intro us
    induction us with
    | nil => exact fun kept _ hkept => hkept
    | cons v us ih =>
      intro kept hus hkept
      obtain ⟨hv, hus⟩ := List.forall_mem_cons.1 hus
      refine ih _ hus ?_
      dsimp only
      split
      · exact hkept
      · exact List.forall_mem_append.2 ⟨hkept, List.forall_mem_singleton.2 hv⟩
  have hws := carries_list.1 (List.forall_mem_singleton.1 h)
  exact carries_list.2 (hfold ws [] hws fun u hu => absurd hu List.not_mem_nil)

theorem concatenate_carries (h : ∀ w ∈ vs, w.Carries P) :
    (Value.ofOption ((Library.concatenate? vs).map .list)).Carries P := by
  have hitems : ∀ ws, Library.concatenate? vs = some ws → ∀ w ∈ ws, w.Carries P := by
    induction vs with
    | nil =>
      intro ws hws
      cases hws
      exact fun w hw => absurd hw List.not_mem_nil
    | cons v rest ih =>
      intro ws hws
      obtain ⟨hv, hrest⟩ := List.forall_mem_cons.1 h
      cases v with
      | list items =>
        obtain ⟨others, hothers, rfl⟩ := Option.map_eq_some_iff.1 hws
        exact List.forall_mem_append.2 ⟨carries_list.1 hv, ih hrest others hothers⟩
      | _ => cases hws
  refine carries_ofOption fun u hu => ?_
  obtain ⟨ws, hws, rfl⟩ := Option.map_eq_some_iff.1 hu
  exact carries_list.2 (hitems ws hws)

mutual

/-- The leaves of a value are values in it. -/
theorem leaves_carries : ∀ v : Value, v.Carries P → ∀ w ∈ Library.leaves v, w.Carries P
  | .list vs, h, w, hw => flattened_carries vs (carries_list.1 h) w hw
  | .null, h, _, hw | .boolean _, h, _, hw | .number _, h, _, hw | .text _, h, _, hw
  | .date _, h, _, hw | .time _, h, _, hw | .moment _, h, _, hw | .duration _, h, _, hw
  | .zone _, h, _, hw | .context _, h, _, hw | .function _, h, _, hw | .method .., h, _, hw
  | .probe _, h, _, hw | .procedure, h, _, hw => List.mem_singleton.1 hw ▸ h

theorem flattened_carries : ∀ vs : List Value, (∀ v ∈ vs, v.Carries P) →
    ∀ w ∈ Library.flatten vs, w.Carries P
  | [], _, w, hw => absurd hw List.not_mem_nil
  | v :: rest, h, w, hw => by
    obtain ⟨hv, hrest⟩ := List.forall_mem_cons.1 h
    rcases List.mem_append.1 hw with hw | hw
    · exact leaves_carries v hv w hw
    · exact flattened_carries rest hrest w hw

end

theorem flatten_carries (h : ∀ w ∈ [Value.list ws], w.Carries P) :
    (Value.list (Library.flatten ws)).Carries P :=
  carries_list.2 (flattened_carries ws (carries_list.1 (List.forall_mem_singleton.1 h)))

end Lists

/-! ### Functions that answer with data -/

theorem decimal_flat {n places : Value} (h : Library.decimal n places = .ok v) : v.isNested = false := by
  unfold Library.decimal at h
  split at h
  · obtain ⟨i, h⟩ := ok_of_bind h
    split at h
    · obtain ⟨r, h⟩ := ok_of_bind h
      cases h
      rfl
    · cases h
      rfl
  · cases h
    rfl

theorem substring_flat {s start length : Value} (h : Library.substring s start length = .ok v) :
    v.isNested = false := by
  unfold Library.substring at h
  split at h
  · split at h
    · cases h
      rfl
    split at h
    · obtain ⟨offset, h⟩ := ok_of_bind h
      cases h
      rfl
    · split at h
      · cases h
        rfl
      · obtain ⟨offset, h⟩ := ok_of_bind h
        obtain ⟨count, h⟩ := ok_of_bind h
        cases h
        rfl
    · cases h
      rfl
  · cases h
    rfl

theorem onTexts_flat (f : List Char → List Char → Bool) (a b : Value) :
    (Library.onTexts f a b).isNested = false := by
  unfold Library.onTexts
  split
  · rfl
  · rfl

theorem string_flat (h : Library.string w = .ok v) : v.isNested = false := by
  unfold Library.string at h
  split at h
  · cases h; rfl
  · cases h; rfl
  · exact flat_of_map h fun _ => rfl

theorem date_flat (h : Library.date vs = .ok v) : v.isNested = false := by
  unfold Library.date at h
  split at h
  · cases h
    unfold Library.dateOf
    split
    · rfl
    · rfl
    · exact flat_ofOption_map _ fun _ => rfl
    · rfl
  · split at h
    · unfold Library.dateOfParts at h
      split at h
      · cases h; rfl
      · cases h
      · split at h
        · cases h
        split at h
        · split at h
          · cases h; rfl
          · cases h; exact flat_ofOption_map _ fun _ => rfl
        · cases h; rfl
    · cases h; rfl
  · cases h

theorem timeOf_flat (v : Value) : (Library.timeOf v).isNested = false := by
  unfold Library.timeOf
  split
  · rfl
  · rfl
  · exact flat_ofOption_map _ fun _ => rfl
  · rfl

theorem momentOf_flat (v : Value) : (Library.momentOf v).isNested = false := by
  unfold Library.momentOf
  split
  · rfl
  · exact flat_ofOption_map _ fun _ => rfl
  · rfl

theorem number_flat (v : Value) : (Library.number v).isNested = false := by
  unfold Library.number
  split
  · rfl
  · exact flat_ofOption_map _ fun _ => rfl
  · rfl

theorem orNull_flat {ns : Option (List Number)} {f : List Number → Except Failure Number}
    (h : Builtin.apply.orNull ns f = .ok v) : v.isNested = false := by
  unfold Builtin.apply.orNull at h
  split at h
  · exact flat_of_map h fun _ => rfl
  · cases h; rfl

/-- Builtins that answer with a list. -/
def listBuiltins : List Builtin := [.append, .concatenate, .reverse, .distinctValues, .indexOf, .flatten]

/-- Other builtins answer with data. -/
theorem apply_flat {b : Builtin} (hb : b ∉ listBuiltins) (h : b.apply vs = .ok v) : v.isNested = false := by
  unfold Builtin.apply at h
  split at h
  all_goals first
    | exact decimal_flat h
    | exact substring_flat h
    | exact string_flat h
    | exact date_flat h
    | exact orNull_flat h
    | exact flat_of_map h fun _ => rfl
    | exact absurd (by decide) hb
    | cases h
  all_goals first
    | exact onTexts_flat _ _ _
    | exact number_flat _
    | exact timeOf_flat _
    | exact momentOf_flat _
    | exact flat_ofOption_map _ fun _ => rfl
    | rfl

/-- **What a builtin answers is data, or made of values among its arguments.** -/
theorem apply_carries {b : Builtin} (hvs : ∀ w ∈ vs, w.Carries P) (h : b.apply vs = .ok v) : v.Carries P := by
  by_cases hb : b ∈ listBuiltins
  · unfold Builtin.apply at h
    split at h
    all_goals first
      | exact absurd hb (by decide)
      | cases h
    · exact append_carries hvs
    · exact concatenate_carries hvs
    · exact reverse_carries hvs
    · exact distinct_carries hvs
    · exact positions_carries _ _
    · exact flatten_carries hvs
    · exact carries_null
  · exact carries_of_flat (apply_flat hb h)

/-- A comparison answers with a boolean, null or the value that it is asked about. -/
theorem answer_carries (hv : v.Carries P) (reports : Bool) (o : Option Bool) :
    (answer reports v o).Carries P := by
  unfold answer
  split
  · split
    · exact hv
    · exact carries_boolean _
  · exact carries_boolean _
  · exact carries_null

theorem match_carries {p : Probe Value} (hv : v.Carries P) (h : (p.match v).outcome = .ok w) :
    w.Carries P := by
  cases p with
  | relation site op operand reports =>
    obtain ⟨u, -, h⟩ := Run.bind_outcome_ok h
    cases h
    exact answer_carries hv _ _
  | interval site bounds reports =>
    obtain ⟨o, -, h⟩ := Run.bind_outcome_ok h
    cases h
    exact answer_carries hv _ _

theorem flat_of_offsetMethod {o : Option Offset} {name : String}
    (h : Value.offsetMethod? o name = some v) : v.isNested = false := by
  unfold Value.offsetMethod? at h
  split at h <;> cases h <;> cases o <;> rfl

/-- A function of a value that takes no argument answers with data. -/
theorem flat_of_loneMethod {receiver : Value} {name : String}
    (h : receiver.loneMethod? name = some v) : v.isNested = false := by
  have hdate : ∀ {d : Date}, Value.dateMethod? d name = some v → v.isNested = false := by
    intro d h
    unfold Value.dateMethod? at h
    split at h <;> cases h <;> rfl
  have hnumber : ∀ {n : Number}, Value.numberMethod? n name = some v → v.isNested = false := by
    intro n h
    unfold Value.numberMethod? at h
    split at h <;> cases h <;> rfl
  unfold Value.loneMethod? at h
  split at h
  · exact hnumber h
  · exact hnumber h
  · split at h <;> cases h <;> rfl
  · split at h
    · cases h
      rfl
    · exact hdate h
  · exact flat_of_offsetMethod h
  · unfold Value.momentMethod? at h
    split at h
    · cases h; rfl
    · cases h; rfl
    · cases h; rfl
    · exact (Option.or_eq_some_iff.1 h).elim hdate fun h => flat_of_offsetMethod h.2
  · split at h
    · cases h
      rfl
    · cases h
  · cases h

/-- A list's functions answer with a number. -/
theorem listMethod_flat {items : List Value} {name : String}
    (h : Value.listMethod items name vs = .ok v) : v.isNested = false := by
  unfold Value.listMethod at h
  split at h
  · rename_i u
    split at h
    · cases h; rfl
    · cases hplace : items.findIdx? (·.eqv u) <;> rw [hplace] at h <;> cases h
      rfl
    · cases h
  · cases h

/-- The body of a builtin answers as the builtin does. -/
theorem callBody_carries {f : Function} (hvs : ∀ w ∈ vs, w.Carries P)
    (h : Value.callBody f vs = .ok v) : v.Carries P := by
  unfold Value.callBody at h
  split at h
  · split at h
    · exact apply_carries (carries_list.1 (List.forall_mem_singleton.1 hvs)) h
    · cases h
  · cases h
  · cases h

/-- A value's own function answers with data if it is no body. -/
theorem callMethod_flat {receiver : Value} {name : String} (hbody : ∀ f, receiver ≠ .function f)
    (h : receiver.callMethod name vs = .ok v) : v.isNested = false := by
  unfold Value.callMethod at h
  split at h
  · rename_i u hu
    unfold Value.answerAlone at h
    split at h <;> cases h
    exact flat_of_loneMethod hu
  unfold Value.argumentMethod at h
  split at h
  · unfold Value.textMethod at h
    split at h
    · split at h <;> cases h <;> rfl
    all_goals cases h
  · split at h <;> cases h
    rfl
  · split at h <;> cases h
    rfl
  · unfold Value.zoneMethod at h
    split at h
    · cases h
    split at h <;> cases h
    · exact flat_of_offsetMethod ‹_›
    · exact flat_of_offsetMethod ‹_›
  · split at h
    · exact listMethod_flat h
    · cases h
  · exact absurd rfl (hbody _)
  · cases h

/-- A value's own function answers with data; a body answers with what its arguments carry. -/
theorem callMethod_carries {receiver : Value} {name : String} (hvs : ∀ w ∈ vs, w.Carries P)
    (h : receiver.callMethod name vs = .ok v) : v.Carries P := by
  by_cases hbody : ∃ f, receiver = .function f
  · obtain ⟨f, rfl⟩ := hbody
    exact callBody_carries hvs h
  · exact carries_of_flat (callMethod_flat (fun f hf => hbody ⟨f, hf⟩) h)

/-- **A call answers with data or with values among its arguments.** -/
theorem call_carries {f : Value} (hvs : ∀ w ∈ vs, w.Carries P) (h : (f.call vs).outcome = .ok v) :
    v.Carries P := by
  unfold Value.call at h
  split at h
  · obtain ⟨-, -, h⟩ := Run.bind_outcome_ok h
    exact apply_carries hvs h
  · obtain ⟨-, -, h⟩ := Run.bind_outcome_ok h
    cases h
    exact carries_list.2 hvs
  · obtain ⟨-, -, h⟩ := Run.bind_outcome_ok h
    cases h
    exact carries_ofOption fun w hw => hvs w (List.mem_of_head? hw)
  · exact callMethod_carries hvs h
  · split at h
    · exact match_carries (List.forall_mem_singleton.1 hvs) h
    · cases h
  · cases h
  · cases h

end Functions

/-! ## Scopes -/

/-- All probes in the values of a scope have a property. -/
def Scope.Carries (P : Probe Value → Prop) (s : Scope) : Prop :=
  ∀ n v, s.get? n = some v → v.Carries P

namespace Scope.Carries

variable {s : Scope} {registry : Fields} {v : Value}

theorem get (h : s.Carries P) (n : String) : (s.get n).Carries P :=
  carries_ofOption fun v hv => h n v hv

theorem extend (h : s.Carries P) {layer : Fields} (hlayer : ∀ p ∈ layer, p.2.Carries P) :
    (s.extend layer).Carries P := by
  intro n v hv
  rw [Scope.get_extend] at hv
  rcases Option.or_eq_some_iff.1 hv with hv | ⟨-, hv⟩
  · exact hlayer _ (mem_of_get hv)
  · exact h n v hv

theorem resolve (h : s.Carries P) (n : String) : (s.resolve n).Carries P := by
  unfold Scope.resolve
  split
  · rename_i v hv
    exact h n v hv
  split
  · exact carries_null
  split
  · exact carries_null
  split
  · rename_i v hv
    exact foldl_field_carries _ (h _ v hv)
  · exact carries_null

theorem resolveName (h : s.Carries P) (hregistry : (Value.context registry).Carries P) (n : String) :
    (resolveName registry s n).Carries P := by
  unfold Criterion.resolveName
  split
  · exact h.resolve n
  · rename_i v _ hv
    exact carries_context.1 hregistry _ (mem_of_get hv)
  · exact h.resolve n

end Scope.Carries

/-! ## Loops and filters -/

section Loops

variable {s : Scope} {v : Value}

theorem mem_put {fields : Fields} {key : String} {p : String × Value}
    (h : p ∈ fields.put key v) : p = (key, v) ∨ p ∈ fields := by
  induction fields with
  | nil => exact .inl (List.mem_singleton.1 h)
  | cons q rest ih =>
    unfold Fields.put at h
    split at h
    · exact (List.mem_cons.1 h).imp_right (List.mem_cons_of_mem _)
    · rcases List.mem_cons.1 h with rfl | h
      · exact .inr List.mem_cons_self
      · exact (ih h).imp_right (List.mem_cons_of_mem _)

/-- Fields after assignments are fields before or among the assignments. -/
theorem mem_update {pairs : List (String × Value)} {p : String × Value} :
    ∀ {fields : Fields}, p ∈ fields.update pairs → p ∈ fields ∨ p ∈ pairs := by
  induction pairs with
  | nil => exact fun h => .inl h
  | cons q pairs ih =>
    intro fields h
    have h' : p ∈ fields.put q.1 q.2 ∨ p ∈ pairs := ih h
    rcases h' with h | h
    · rcases mem_put h with rfl | h
      · exact .inr List.mem_cons_self
      · exact .inl h
    · exact .inr (List.mem_cons_of_mem _ h)

theorem mem_ofPairs {pairs : List (String × Value)} {p : String × Value}
    (h : p ∈ Fields.ofPairs pairs) : p ∈ pairs :=
  (mem_update h).elim (fun h => absurd h List.not_mem_nil) id

theorem mem_of_product {α : Type} {lists : List (List α)} {choice : List α}
    (h : choice ∈ product lists) : ∀ a ∈ choice, ∃ l ∈ lists, a ∈ l := by
  induction lists generalizing choice with
  | nil =>
    cases List.mem_singleton.1 h
    exact fun a ha => absurd ha List.not_mem_nil
  | cons l lists ih =>
    obtain ⟨b, hb, h⟩ := List.mem_flatMap.1 h
    obtain ⟨rest, hrest, rfl⟩ := List.mem_map.1 h
    intro a ha
    rcases List.mem_cons.1 ha with rfl | ha
    · exact ⟨l, List.mem_cons_self, hb⟩
    · obtain ⟨l', hl', ha⟩ := ih hrest a ha
      exact ⟨l', List.mem_cons_of_mem _ hl', ha⟩

/-- A choice of one element for each name has these names. -/
theorem keys_of_product {domains : List (String × List Value)} {pairs : List (String × Value)}
    (h : pairs ∈ product (domains.map fun (name, values) => values.map fun v => (name, v))) :
    pairs.map (·.1) = domains.map (·.1) := by
  induction domains generalizing pairs with
  | nil =>
    cases List.mem_singleton.1 h
    rfl
  | cons d domains ih =>
    obtain ⟨p, hp, h⟩ := List.mem_flatMap.1 h
    obtain ⟨others, hothers, rfl⟩ := List.mem_map.1 h
    obtain ⟨v, -, rfl⟩ := List.mem_map.1 hp
    rw [List.map_cons, List.map_cons, ih hothers]

/-- A scope of a loop is the scope around it with one element for each name that the loop binds. -/
theorem pairs_of_loopScopes {t : Scope} {domains : List (String × List Value)}
    (h : t ∈ loopScopes s domains) : ∃ pairs : List (String × Value), t = s.extend (.ofPairs pairs) ∧
      pairs.map (·.1) = domains.map (·.1) ∧ ∀ p ∈ pairs, ∃ d ∈ domains, p.1 = d.1 ∧ p.2 ∈ d.2 := by
  obtain ⟨pairs, hpairs, rfl⟩ := List.mem_map.1 h
  refine ⟨pairs, rfl, keys_of_product hpairs, fun p hp => ?_⟩
  obtain ⟨l, hl, hp⟩ := mem_of_product hpairs p hp
  obtain ⟨d, hd, rfl⟩ := List.mem_map.1 hl
  obtain ⟨v, hv, rfl⟩ := List.mem_map.1 hp
  exact ⟨d, hd, rfl, hv⟩

/-- A filter's layer for an element has the element and its fields. -/
theorem itemLayer_carries (h : v.Carries P) : ∀ p ∈ v.itemLayer, p.2.Carries P := by
  intro p hp
  unfold Value.itemLayer at hp
  split at hp
  · rename_i fields
    have hfields := carries_context.1 h
    -- the last assignments are the fields by themselves, before them the element and its fields
    rcases mem_update hp with hp | hp
    · rcases List.mem_cons.1 (mem_ofPairs hp) with rfl | hp
      · exact h
      · obtain ⟨q, hq, rfl⟩ := List.mem_map.1 hp
        exact hfields q hq
    · exact hfields p hp
  · obtain rfl := List.mem_singleton.1 hp
    exact h

/-- A loop goes through scopes that carry what its lists do. -/
theorem loopScopes_carries (h : s.Carries P) {domains : List (String × List Value)}
    (hdomains : ∀ d ∈ domains, ∀ v ∈ d.2, v.Carries P) : ∀ t ∈ loopScopes s domains, t.Carries P := by
  intro t ht
  obtain ⟨pairs, rfl, -, hpairs⟩ := pairs_of_loopScopes ht
  refine h.extend fun p hp => ?_
  obtain ⟨d, hd, -, hv⟩ := hpairs p (mem_ofPairs hp)
  exact hdomains d hd _ hv

/-- A loop goes over a list. -/
theorem domainOf_ok {name : String} {items : List Value} (h : domainOf name v = .ok items) :
    v = .list items := by
  unfold domainOf at h
  split at h
  · cases h
    rfl
  · cases hshown : v.shown <;> rw [hshown] at h <;> cases h

theorem elements_carries (h : v.Carries P) : ∀ w ∈ v.elements, w.Carries P := by
  unfold Value.elements
  split
  · exact carries_list.1 h
  · exact List.forall_mem_singleton.2 h

theorem atPosition_carries {items : List Value} {position : Value} (hitems : ∀ w ∈ items, w.Carries P)
    (h : Value.atPosition items position = .ok v) : v.Carries P := by
  have hplace : ∀ place : Int,
      (if place < 0 then Value.null else .ofOption items[place.toNat]?).Carries P := by
    intro place
    split
    · exact carries_null
    · exact carries_ofOption fun w hw => hitems w (List.mem_of_getElem? hw)
  unfold Value.atPosition at h
  split at h
  · obtain ⟨i, h⟩ := ok_of_bind h
    dsimp only at h
    split at h
    · cases h
      exact carries_null
    · cases h
      exact hplace _
  · cases h
    exact carries_null

/-- A filter by a predicate keeps elements only. -/
theorem mem_of_selectWhere {predicate : Scope → Eval Value} {items ws : List Value}
    (h : (selectWhere predicate s items).outcome = .ok ws) : ∀ w ∈ ws, w ∈ items := by
  induction items generalizing ws with
  | nil =>
    cases h
    exact fun w hw => hw
  | cons item rest ih =>
    -- whether the element holds or not, the others are kept as they are
    have hkept : ∀ holds : Value, (do
        let others ← selectWhere predicate s rest
        return if holds.isTrue then item :: others else others : Eval (List Value)).outcome = .ok ws →
          ∀ w ∈ ws, w ∈ item :: rest := by
      intro holds h
      obtain ⟨others, hothers, h⟩ := Run.bind_outcome_ok h
      cases h
      have hrest : ∀ w ∈ others, w ∈ item :: rest :=
        fun w hw => List.mem_cons_of_mem _ (ih hothers w hw)
      split
      · exact List.forall_mem_cons.2 ⟨List.mem_cons_self, hrest⟩
      · exact hrest
    obtain ⟨outcome, -, h⟩ := Run.bind_outcome_ok h
    split at h
    · obtain ⟨holds, -, h⟩ := Run.bind_outcome_ok h
      exact hkept holds h
    · obtain ⟨holds, -, h⟩ := Run.bind_outcome_ok h
      exact hkept holds h

/-- A filter of what is not null decides by the kind of its condition. -/
theorem select_eq {v : Value} (hv : v.kind ≠ .null) (tag : Option Tag) (body : Scope → Eval Value) (s : Scope) :
    select v tag body s = match tag with
      | some .number => do
        let position ← body s
        Run.ofExcept (Value.atPosition v.elements position)
      | some .boolean => do
        let w ← body s
        return if w.isNonzero then .list v.elements
          else if v.isList then .list [] else .null
      | some .string => do
        let w ← body s
        return .list (v.elements.filter (·.eqv w))
      | _ => do return .list (← selectWhere body s v.elements) := by
  cases v with
  | null => exact absurd rfl hv
  | _ => rfl

/-- **What a filter keeps carries what it filters, whatever its condition is**: it keeps elements of what it filters. -/
theorem select_carries {target : Value} (htarget : target.Carries P) {tag : Option Tag}
    {condition : Scope → Eval Value} (h : (select target tag condition s).outcome = .ok v) :
    v.Carries P := by
  have helements := elements_carries htarget
  unfold select at h
  split at h
  · cases h
    exact carries_null
  split at h
  · obtain ⟨position, -, h⟩ := Run.bind_outcome_ok h
    exact atPosition_carries helements h
  · obtain ⟨w, -, h⟩ := Run.bind_outcome_ok h
    cases h
    split
    · exact carries_list.2 helements
    split
    · exact carries_list.2 fun w hw => absurd hw List.not_mem_nil
    · exact carries_null
  · obtain ⟨w, -, h⟩ := Run.bind_outcome_ok h
    cases h
    exact carries_list.2 fun u hu => helements u (List.mem_filter.1 hu).1
  · obtain ⟨ws, hws, h⟩ := Run.bind_outcome_ok h
    cases h
    exact carries_list.2 fun w hw => helements w (mem_of_selectWhere hws w hw)

end Loops

end Criterion

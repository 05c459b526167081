import Criterion.Proofs.Carried
import Mathlib.Logic.Embedding.Basic

/-!
# Values whose probes come from elsewhere

A probe knows the place in the source that it comes from, and two probes are equal only if they come from
one place. Moving all places along a map that keeps different places apart changes nothing else: values
stand to each other as before, are shown as before and have the fields that they had.

* `Value.moved`: a value with the places of its probes moved, at any depth.
* `eqv_moved`, `standing_moved`: moved values are equal, and in order, if the values are.
* `field_moved`, `fieldOrFields_moved`: the fields of a moved value are the moved fields.
* `includes_moved`, `between_moved`: moved bounds hold the moved values.
* `Value.probeFree`, `moved_eq_self`: values without probes stay as they are.
-/

namespace Criterion

/-! ## Moving -/

section Moving

variable (ρ : ℕ ↪ ℕ)

mutual

/-- The value with the places of all its probes moved along `ρ`. -/
def Value.moved : Value → Value
  | .list items => .list (movedItems items)
  | .context fields => .context (movedFields fields)
  | .method receiver name => .method receiver.moved name
  | .probe p => .probe (movedProbe p)
  | .null => .null
  | .boolean b => .boolean b
  | .number n => .number n
  | .text s => .text s
  | .date d => .date d
  | .time t => .time t
  | .moment m => .moment m
  | .duration d => .duration d
  | .zone o => .zone o
  | .function f => .function f
  | .procedure => .procedure

def movedItems : List Value → List Value
  | [] => []
  | v :: rest => v.moved :: movedItems rest

def movedFields : List (String × Value) → List (String × Value)
  | [] => []
  | (k, v) :: rest => (k, v.moved) :: movedFields rest

/-- The probe at its new place, with its operand or its bounds moved. -/
def movedProbe : Probe Value → Probe Value
  | .relation site op ⟨events, outcome⟩ reports =>
    .relation (ρ site) op ⟨movedCalls events, movedOutcome outcome⟩ reports
  | .interval site ⟨start, stop, includesStart, includesStop⟩ reports =>
    .interval (ρ site) ⟨start.moved, stop.moved, includesStart, includesStop⟩ reports

def movedCalls : List (List Value) → List (List Value)
  | [] => []
  | arguments :: rest => movedItems arguments :: movedCalls rest

def movedOutcome : Except Failure Value → Except Failure Value
  | .ok v => .ok v.moved
  | .error e => .error e

end

end Moving

/-- The fields with all values moved. -/
def Fields.moved (ρ : ℕ ↪ ℕ) (fields : Fields) : Fields := fields.map fun p => (p.1, p.2.moved ρ)

/-- The interval with its bounds moved. -/
def Interval.moved (ρ : ℕ ↪ ℕ) (i : Interval Value) : Interval Value :=
  ⟨i.start.moved ρ, i.stop.moved ρ, i.includesStart, i.includesStop⟩

section Moved

variable {ρ : ℕ ↪ ℕ} {v w : Value} {items : List Value} {fields : Fields} {name : String}

theorem movedItems_eq (items : List Value) : movedItems ρ items = items.map (Value.moved ρ) := by
  induction items with
  | nil => rfl
  | cons v rest ih => rw [movedItems, ih, List.map_cons]

theorem movedFields_eq (fields : Fields) : movedFields ρ fields = Fields.moved ρ fields := by
  induction fields with
  | nil => rfl
  | cons p rest ih =>
    rw [movedFields, ih]
    rfl

theorem movedCalls_eq (calls : List (List Value)) :
    movedCalls ρ calls = calls.map (List.map (Value.moved ρ)) := by
  induction calls with
  | nil => rfl
  | cons arguments rest ih => rw [movedCalls, ih, movedItems_eq, List.map_cons]

namespace Value

@[simp] theorem moved_null : Value.null.moved ρ = .null := rfl

@[simp] theorem moved_boolean (b : Bool) : (Value.boolean b).moved ρ = .boolean b := rfl

@[simp] theorem moved_number (n : Number) : (Value.number n).moved ρ = .number n := rfl

@[simp] theorem moved_whole (i : Int) : (Value.whole i).moved ρ = .whole i := rfl

@[simp] theorem moved_text (s : String) : (Value.text s).moved ρ = .text s := rfl

@[simp] theorem moved_procedure : Value.procedure.moved ρ = .procedure := rfl

@[simp] theorem moved_list (items : List Value) :
    (Value.list items).moved ρ = .list (items.map (Value.moved ρ)) := by
  rw [moved, movedItems_eq]

@[simp] theorem moved_context (fields : Fields) :
    (Value.context fields).moved ρ = .context (fields.moved ρ) := by
  rw [moved, movedFields_eq]

@[simp] theorem moved_method (receiver : Value) (name : String) :
    (Value.method receiver name).moved ρ = .method (receiver.moved ρ) name := rfl

@[simp] theorem moved_probe (p : Probe Value) :
    (Value.probe p).moved ρ = .probe (movedProbe ρ p) := rfl

@[simp] theorem moved_ofOption (o : Option Value) :
    (Value.ofOption o).moved ρ = .ofOption (o.map (Value.moved ρ)) := by
  cases o <;> rfl

@[simp] theorem moved_ofBool (o : Option Bool) : (Value.ofBool? o).moved ρ = .ofBool? o := by
  cases o <;> rfl

/-- Data that an option holds is not moved. -/
theorem moved_ofOption_map {α : Type} (o : Option α) {f : α → Value} (hf : ∀ a, (f a).moved ρ = f a) :
    (Value.ofOption (o.map f)).moved ρ = .ofOption (o.map f) := by
  cases o with
  | none => rfl
  | some a => exact hf a

end Value

@[simp] theorem Fields.moved_nil : Fields.moved ρ [] = [] := rfl

@[simp] theorem Fields.moved_cons (p : String × Value) (fields : Fields) :
    Fields.moved ρ (p :: fields) = (p.1, p.2.moved ρ) :: fields.moved ρ := rfl

@[simp] theorem Fields.keys_moved (fields : Fields) :
    (fields.moved ρ).map (·.1) = fields.map (·.1) := by
  unfold Fields.moved
  rw [List.map_map]
  rfl

theorem Fields.get_moved (fields : Fields) (name : String) :
    (fields.moved ρ).get? name = (fields.get? name).map (Value.moved ρ) := by
  unfold Fields.get?
  induction fields with
  | nil => rfl
  | cons p rest ih =>
    obtain ⟨k, v⟩ := p
    rw [Fields.moved_cons, List.lookup_cons, List.lookup_cons, ih]
    cases name == k <;> rfl

/-! ## Kinds -/

namespace Value

@[simp] theorem kind_moved (v : Value) : (v.moved ρ).kind = v.kind := by
  cases v with
  | method receiver _ => cases receiver <;> rfl
  | _ => rfl

@[simp] theorem sameKind_moved (v w : Value) : (v.moved ρ).sameKind (w.moved ρ) = v.sameKind w := by
  rw [sameKind, sameKind, kind_moved, kind_moved]

@[simp] theorem isList_moved (v : Value) : (v.moved ρ).isList = v.isList := by
  rw [isList, isList, kind_moved]

@[simp] theorem isCallable_moved (v : Value) : (v.moved ρ).isCallable = v.isCallable := by
  rw [isCallable, isCallable, kind_moved]

@[simp] theorem typeName_moved (v : Value) : (v.moved ρ).typeName = v.typeName := by
  rw [typeName, typeName, kind_moved]

@[simp] theorem isInstance_moved (v : Value) (name : String) :
    (v.moved ρ).isInstance name = v.isInstance name := by
  unfold isInstance
  rw [kind_moved, isCallable_moved]

@[simp] theorem isTrue_moved (v : Value) : (v.moved ρ).isTrue = v.isTrue := by
  cases v <;> rfl

@[simp] theorem isNonzero_moved (v : Value) : (v.moved ρ).isNonzero = v.isNonzero := by
  cases v with
  | list items =>
    rw [moved_list]
    cases items <;> rfl
  | context fields =>
    rw [moved_context]
    cases fields <;> rfl
  | _ => rfl

theorem isNested_moved (v : Value) : (v.moved ρ).isNested = v.isNested := by
  rw [isNested, isNested, kind_moved]

theorem moved_of_flat (h : v.isNested = false) : v.moved ρ = v := by
  cases v with
  | list _ | context _ | probe _ => cases h
  | method receiver _ => cases receiver <;> first | rfl | cases h
  | _ => rfl

theorem elements_moved (v : Value) : (v.moved ρ).elements = v.elements.map (Value.moved ρ) := by
  cases v with
  | list items =>
    rw [moved_list]
    rfl
  | _ => rfl

end Value

/-! ## Equality and order -/

mutual

/-- Moved values are equal if the values are: different places stay different. -/
theorem eqv_moved : ∀ v w : Value, (v.moved ρ).eqv (w.moved ρ) = v.eqv w
  | .list xs, w => by
    cases w with
    | list ys => exact eqvItems_moved xs ys
    | _ => rfl
  | .context es, w => by
    cases w with
    | context fs =>
      have hes : (movedFields ρ es).length = es.length := by simp [movedFields_eq, Fields.moved]
      have hfs : (movedFields ρ fs).length = fs.length := by simp [movedFields_eq, Fields.moved]
      rw [Value.moved, Value.moved, Value.eqv, Value.eqv, eqvFields_moved es fs, hes, hfs]
    | _ => rfl
  | .method r a, w => by
    cases w with
    | method s b =>
      rw [Value.moved_method, Value.moved_method, Value.eqv, Value.eqv, eqv_moved r s]
    | _ => rfl
  | .probe (.relation s o ⟨_, .ok v⟩ a), w => by
    cases w with
    | probe q =>
      cases q with
      | relation t p r b =>
        obtain ⟨_, _ | w⟩ := r
        · rfl
        · simp only [Value.moved_probe, movedProbe, movedOutcome, Value.eqv, eqv_moved v w, ρ.injective.beq_eq]
      | interval => rfl
    | _ => rfl
  | .probe (.relation s o ⟨_, .error e⟩ a), w => by
    cases w with
    | probe q =>
      cases q with
      | relation t p r b =>
        obtain ⟨_, _ | w⟩ := r
        · simp only [Value.moved_probe, movedProbe, movedOutcome, Value.eqv, ρ.injective.beq_eq]
        · rfl
      | interval => rfl
    | _ => rfl
  | .probe (.interval s ⟨l, h, c, d⟩ a), w => by
    cases w with
    | probe q =>
      cases q with
      | relation t p r b =>
        obtain ⟨_, _ | w⟩ := r <;> rfl
      | interval t i b =>
        obtain ⟨m, k, e, f⟩ := i
        simp only [Value.moved_probe, movedProbe, Value.eqv, eqv_moved l m, eqv_moved h k, ρ.injective.beq_eq]
    | _ => rfl
  | .null, w | .boolean _, w | .number _, w | .text _, w | .date _, w | .time _, w | .moment _, w
  | .duration _, w | .zone _, w | .function _, w | .procedure, w => by cases w <;> rfl

theorem eqvItems_moved : ∀ xs ys : List Value,
    Value.eqvItems (movedItems ρ xs) (movedItems ρ ys) = Value.eqvItems xs ys
  | [], ys => by cases ys <;> rfl
  | x :: xs, ys => by
    cases ys with
    | nil => rfl
    | cons y ys =>
      rw [movedItems, movedItems, Value.eqvItems, Value.eqvItems, eqv_moved x y, eqvItems_moved xs ys]

theorem eqvFields_moved : ∀ es fs : List (String × Value),
    Value.eqvFields (movedFields ρ es) (movedFields ρ fs) = Value.eqvFields es fs
  | [], _ => rfl
  | (k, v) :: es, fs => by
    have hlookup : (movedFields ρ fs).lookup k = (fs.lookup k).map (Value.moved ρ) := by
      rw [movedFields_eq]
      exact Fields.get_moved fs k
    rw [movedFields, Value.eqvFields, Value.eqvFields, hlookup, eqvFields_moved es fs]
    cases fs.lookup k with
    | none => rfl
    | some w =>
      show (((v.moved ρ).eqv (w.moved ρ)) && _) = _
      rw [eqv_moved v w]

end

mutual

/-- Moved values stand to each other as the values do. -/
theorem standing_moved : ∀ v w : Value, (v.moved ρ).standing (w.moved ρ) = v.standing w
  | .list xs, w => by
    cases w with
    | list ys => exact standingItems_moved xs ys
    | _ => rfl
  | .null, w | .boolean _, w | .number _, w | .text _, w | .date _, w | .time _, w | .moment _, w
  | .duration _, w | .zone _, w | .context _, w | .function _, w | .method .., w | .probe _, w
  | .procedure, w => by
    cases w <;> rfl

theorem standingItems_moved : ∀ xs ys : List Value,
    Value.standingItems (movedItems ρ xs) (movedItems ρ ys) = Value.standingItems xs ys
  | [], ys => by cases ys <;> rfl
  | x :: xs, ys => by
    cases ys with
    | nil => rfl
    | cons y ys =>
      rw [movedItems, movedItems, Value.standingItems, Value.standingItems, eqv_moved x y,
        standingItems_moved xs ys, standing_moved x y]

end

namespace Value

@[simp] theorem isAmong_moved (v : Value) (items : List Value) :
    (v.moved ρ).isAmong (items.map (moved ρ)) = v.isAmong items := by
  unfold isAmong
  rw [List.any_map]
  exact List.any_congr rfl fun w => eqv_moved w v

theorem lt_moved (v w : Value) : (v.moved ρ).lt? (w.moved ρ) = v.lt? w := by
  rw [lt?, lt?, standing_moved]

theorem le_moved (v w : Value) : (v.moved ρ).le? (w.moved ρ) = v.le? w := by
  rw [le?, le?, standing_moved]

theorem gt_moved (v w : Value) : (v.moved ρ).gt? (w.moved ρ) = v.gt? w := by
  rw [gt?, gt?, standing_moved]

theorem ge_moved (v w : Value) : (v.moved ρ).ge? (w.moved ρ) = v.ge? w := by
  rw [ge?, ge?, standing_moved]

/-- Moved values compare as the values do. -/
theorem compare_moved (op : Relation) (v w : Value) :
    compare? op (v.moved ρ) (w.moved ρ) = compare? op v w := by
  cases op <;>
    simp only [compare?, compare?.ordered, eqv_moved, sameKind_moved, lt_moved, le_moved, gt_moved, ge_moved]

theorem least_moved (v w : Value) :
    (v.moved ρ).least? (w.moved ρ) = (v.least? w).map (moved ρ) := by
  unfold least?
  rw [lt_moved]
  rcases w.lt? v with _ | _ | _ <;> rfl

theorem greatest_moved (v w : Value) :
    (v.moved ρ).greatest? (w.moved ρ) = (v.greatest? w).map (moved ρ) := by
  unfold greatest?
  rw [gt_moved]
  rcases w.gt? v with _ | _ | _ <;> rfl

/-- Moved values lie between moved bounds if the values do. -/
theorem between_moved (v start stop : Value) :
    (v.moved ρ).between? (start.moved ρ) (stop.moved ρ) = v.between? start stop := by
  unfold between?
  rw [kind_moved, sameKind_moved, sameKind_moved, least_moved, greatest_moved]
  split
  · rfl
  cases start.least? stop with
  | none => rfl
  | some low =>
    show ((low.moved ρ).le? (v.moved ρ)).bind _ = (low.le? v).bind _
    rw [le_moved]
    cases start.greatest? stop with
    | none => rfl
    | some high =>
      refine congrArg _ (funext fun b => ?_)
      show (if b = true then (v.moved ρ).le? (high.moved ρ) else some false) = _
      rw [le_moved]
      rfl

end Value

theorem includesOrdered_moved (i : Interval Value) (v : Value) :
    (i.moved ρ).includesOrdered (v.moved ρ) = i.includesOrdered v := by
  obtain ⟨start, stop, includesStart, includesStop⟩ := i
  unfold Interval.includesOrdered Interval.moved
  simp only [Value.lt_moved]
  refine congrArg _ (funext fun descending => ?_)
  cases descending <;> simp only [Value.lt_moved, Value.le_moved, if_true, if_false, Bool.false_eq_true]

/-- Membership by kinds and order: all cases but the one of three numbers. -/
theorem includes_of_kinds {i : Interval Value}
    (h : ¬ (i.start.kind = .number ∧ i.stop.kind = .number ∧ v.kind = .number)) :
    i.includes v = .ok (if i.start.kind = .null ∨ i.stop.kind = .null ∨ v.kind = .null then none
      else if i.start.sameKind i.stop && i.start.sameKind v then i.includesOrdered v else none) := by
  obtain ⟨start, stop, includesStart, includesStop⟩ := i
  unfold Interval.includes
  dsimp only at h ⊢
  split
  · exact congrArg Except.ok (if_pos (.inl rfl)).symm
  · exact congrArg Except.ok (if_pos (.inr (.inl rfl))).symm
  · exact congrArg Except.ok (if_pos (.inr (.inr rfl))).symm
  · exact absurd ⟨rfl, rfl, rfl⟩ h
  · rename_i hstart hstop hv _
    have hnone : ¬ (start.kind = .null ∨ stop.kind = .null ∨ v.kind = .null) := by
      rintro (hnull | hnull | hnull)
      · exact hstart (Value.null_of_kind hnull)
      · exact hstop (Value.null_of_kind hnull)
      · exact hv (Value.null_of_kind hnull)
    rw [if_neg hnone]

/-- Moved bounds hold the moved values. -/
theorem includes_moved (i : Interval Value) (v : Value) :
    (i.moved ρ).includes (v.moved ρ) = i.includes v := by
  by_cases h : i.start.kind = .number ∧ i.stop.kind = .number ∧ v.kind = .number
  · -- numbers have no places
    have hflat : ∀ u : Value, u.kind = .number → u.moved ρ = u := by
      intro u hu
      apply Value.moved_of_flat
      rw [Value.isNested, hu]
      rfl
    unfold Interval.moved
    rw [hflat _ h.1, hflat _ h.2.1, hflat _ h.2.2]
  · rw [includes_of_kinds h]
    have hmoved : ¬ ((i.moved ρ).start.kind = .number ∧ (i.moved ρ).stop.kind = .number ∧
        (v.moved ρ).kind = .number) := by
      unfold Interval.moved
      rwa [Value.kind_moved, Value.kind_moved, Value.kind_moved]
    rw [includes_of_kinds hmoved, includesOrdered_moved]
    unfold Interval.moved
    rw [Value.kind_moved, Value.kind_moved, Value.kind_moved, Value.sameKind_moved, Value.sameKind_moved]

/-! ## What messages show -/

/-- Of a value's own function the type of the value is shown. -/
theorem shownMethod_moved (receiver : Value) (name : String) :
    (receiver.moved ρ).shownMethod name = receiver.shownMethod name := by
  cases receiver <;> rfl

mutual

/-- The line that shows a value shows no places. -/
theorem shown_moved : ∀ v : Value, (v.moved ρ).shown = v.shown
  | .list items => by rw [Value.moved, Value.shown, Value.shown, shownItems_moved items]
  | .context fields => by rw [Value.moved, Value.shown, Value.shown, shownFields_moved fields]
  | .method receiver name => congrArg Except.ok (shownMethod_moved receiver name)
  | .null | .boolean _ | .number _ | .text _ | .date _ | .time _ | .moment _ | .duration _ | .zone _
  | .function _ | .probe _ | .procedure => rfl

theorem shownItems_moved : ∀ items : List Value,
    Value.shownItems (movedItems ρ items) = Value.shownItems items
  | [] => rfl
  | v :: rest => by
    rw [movedItems, Value.shownItems, Value.shownItems, shown_moved v, shownItems_moved rest]

theorem shownFields_moved : ∀ fields : List (String × Value),
    Value.shownFields (movedFields ρ fields) = Value.shownFields fields
  | [] => rfl
  | (k, v) :: rest => by
    rw [movedFields, Value.shownFields, Value.shownFields, shown_moved v, shownFields_moved rest]

end

theorem plainText_moved (v : Value) : (v.moved ρ).plainText = v.plainText := by
  cases v <;> first
    | rfl
    | exact shown_moved _

theorem range_moved (v w : Value) : (v.moved ρ).range (w.moved ρ) = v.range w := by
  have hwhole : ∀ u : Value, (u.moved ρ).whole? = u.whole? := fun u => by cases u <;> rfl
  unfold Value.range
  rw [hwhole, hwhole, shown_moved, shown_moved]

theorem domainOf_moved (name : String) (v : Value) :
    domainOf name (v.moved ρ) = (domainOf name v).map (List.map (Value.moved ρ)) := by
  have hother : ∀ u : Value, u.kind ≠ .list →
      domainOf name u = (u.shown >>= fun line => .error (.notAList name u.typeName line)) := by
    intro u hu
    cases u with
    | list items => exact absurd rfl hu
    | _ => rfl
  by_cases h : v.kind = .list
  · obtain ⟨items, rfl⟩ := Value.list_of_kind h
    rw [Value.moved_list]
    rfl
  · rw [hother v h, hother (v.moved ρ) (by rwa [Value.kind_moved]), Value.typeName_moved, shown_moved]
    cases v.shown <;> rfl

/-! ## Fields -/

namespace Value

/-- A value's own fields are data. -/
theorem ownField_moved (v : Value) (name : String) :
    (v.moved ρ).ownField? name = (v.ownField? name).map (moved ρ) := by
  have hsame : (v.moved ρ).ownField? name = v.ownField? name := by
    cases v <;> rfl
  rw [hsame]
  cases h : v.ownField? name with
  | none => rfl
  | some w => rw [Option.map_some, moved_of_flat (flat_of_ownField h)]

theorem methods_moved (v : Value) : (v.moved ρ).methods = v.methods := by
  cases v <;> rfl

/-- The field of a moved value is the moved field. -/
theorem field_moved (v : Value) (name : String) : (v.moved ρ).field name = (v.field name).moved ρ := by
  -- what is no context has a function of its own under the name, or a field of its own
  have hother : ∀ u : Value, u.kind ≠ .context → u.field name =
      if name.toList.head? = some '_' then .null
      else if u.methods.contains name then .method u name
      else .ofOption (u.ownField? name) := by
    intro u hu
    cases u with
    | context fields => exact absurd rfl hu
    | _ => rfl
  by_cases h : v.kind = .context
  · obtain ⟨fields, rfl⟩ := context_of_kind h
    rw [moved_context]
    show ofOption ((Fields.moved ρ fields).get? name) = (ofOption (Fields.get? fields name)).moved ρ
    rw [Fields.get_moved, moved_ofOption]
  · rw [hother v h, hother (v.moved ρ) (by rwa [kind_moved]), methods_moved, ownField_moved]
    split
    · rfl
    split
    · rfl
    · exact (moved_ofOption _).symm

theorem fieldOrFields_moved (v : Value) (name : String) :
    (v.moved ρ).fieldOrFields name = (v.fieldOrFields name).moved ρ := by
  have hother : ∀ u : Value, u.kind ≠ .list → u.fieldOrFields name = u.field name := by
    intro u hu
    cases u with
    | list items => exact absurd rfl hu
    | _ => rfl
  by_cases h : v.kind = .list
  · obtain ⟨items, rfl⟩ := list_of_kind h
    have hfields : ∀ u ∈ items, ((·.field name) ∘ moved ρ) u = (moved ρ ∘ (·.field name)) u :=
      fun u _ => field_moved u name
    rw [moved_list]
    show Value.list ((items.map (moved ρ)).map (·.field name)) = (Value.list (items.map (·.field name))).moved ρ
    rw [moved_list, List.map_map, List.map_map, List.map_congr_left hfields]
  · rw [hother v h, hother (v.moved ρ) (by rwa [kind_moved]), field_moved]

/-- A chain of fields. -/
theorem foldl_field_moved (names : List String) (v : Value) :
    names.foldl fieldOrFields (v.moved ρ) = (names.foldl fieldOrFields v).moved ρ := by
  induction names generalizing v with
  | nil => rfl
  | cons name names ih =>
    rw [List.foldl_cons, List.foldl_cons, fieldOrFields_moved, ih]

theorem flat_of_temporal {op : Arithmetic} {u : Value} (h : temporal? op v w = some u) :
    v.isNested = false ∧ w.isNested = false := by
  cases op with
  | power => cases h
  | _ =>
    simp only [temporal?, temporalSum?, temporalDifference?, temporalProduct?, temporalQuotient?] at h
    split at h
    all_goals first
      | exact ⟨rfl, rfl⟩
      | cases h

theorem moved_of_temporal {op : Arithmetic} {u : Value} (h : temporal? op v w = some u) :
    u.moved ρ = u := by
  cases op with
  | power => cases h
  | _ =>
    simp only [temporal?, temporalSum?, temporalDifference?, temporalProduct?, temporalQuotient?] at h
    split at h
    all_goals first
      | obtain ⟨_, -, rfl⟩ := Option.map_eq_some_iff.1 h; rfl
      | cases h

/-- Arithmetic makes data, which has no places. -/
theorem moved_arithmetic (op : Arithmetic) (v w : Value) :
    (arithmetic op v w).moved ρ = arithmetic op v w := by
  unfold arithmetic
  split
  · rfl
  split
  · split <;> rfl
  · exact moved_ofOption_map _ moved_number
  · cases h : temporal? op _ _ with
    | none => rfl
    | some u => exact moved_of_temporal h

theorem arithmetic_nested (op : Arithmetic) (h : v.isNested = true ∨ w.isNested = true) :
    arithmetic op v w = .null := by
  unfold arithmetic
  split
  · rfl
  split
  · rcases h with h | h <;> cases h
  · rcases h with h | h <;> cases h
  · cases htemporal : temporal? op v w with
    | none => rfl
    | some u =>
      obtain ⟨hv, hw⟩ := flat_of_temporal htemporal
      rw [hv, hw] at h
      exact absurd h (by decide)

/-- Arithmetic takes no places into account. -/
theorem arithmetic_moved (op : Arithmetic) (v w : Value) :
    arithmetic op (v.moved ρ) (w.moved ρ) = (arithmetic op v w).moved ρ := by
  rw [moved_arithmetic]
  cases hv : v.isNested with
  | true => rw [arithmetic_nested op (.inl hv), arithmetic_nested op (.inl (v.isNested_moved.trans hv))]
  | false =>
    cases hw : w.isNested with
    | true => rw [arithmetic_nested op (.inr hw), arithmetic_nested op (.inr (w.isNested_moved.trans hw))]
    | false => rw [moved_of_flat hv, moved_of_flat hw]

end Value

/-! ## Lists and layers -/

namespace Value

theorem atPosition_moved (items : List Value) (position : Value) :
    atPosition (items.map (moved ρ)) (position.moved ρ) = (atPosition items position).map (moved ρ) := by
  cases position with
  | number n =>
    rw [moved_number]
    unfold atPosition
    simp only [List.length_map, List.getElem?_map]
    cases n.truncate with
    | error e => rfl
    | ok i =>
      simp only [bind, Except.bind]
      split
      · rfl
      · refine congrArg Except.ok ?_
        rw [apply_ite (moved ρ), moved_null, moved_ofOption]
  | _ => rfl

end Value

namespace Fields

theorem put_moved (fields : Fields) (key : String) (v : Value) :
    (fields.put key v).moved ρ = (fields.moved ρ).put key (v.moved ρ) := by
  induction fields with
  | nil => rfl
  | cons p rest ih =>
    obtain ⟨k, w⟩ := p
    rw [moved_cons, put, put]
    split
    · rfl
    · rw [moved_cons, ih]

theorem update_moved (fields : Fields) (pairs : List (String × Value)) :
    (fields.update pairs).moved ρ = (fields.moved ρ).update (Fields.moved ρ pairs) := by
  unfold update
  induction pairs generalizing fields with
  | nil => rfl
  | cons p pairs ih =>
    rw [List.foldl_cons, ih, put_moved]
    rfl

theorem ofPairs_moved (pairs : List (String × Value)) :
    (ofPairs pairs).moved ρ = ofPairs (Fields.moved ρ pairs) := update_moved [] pairs

end Fields

/-- A filter's layer for a moved element is the moved layer. -/
theorem itemLayer_moved (v : Value) : (v.moved ρ).itemLayer = Fields.moved ρ v.itemLayer := by
  have hother : ∀ u : Value, u.kind ≠ .context → u.itemLayer = [("item", u)] := by
    intro u hu
    cases u with
    | context fields => exact absurd rfl hu
    | _ => rfl
  by_cases h : v.kind = .context
  · obtain ⟨fields, rfl⟩ := Value.context_of_kind h
    rw [Value.moved_context]
    unfold Value.itemLayer
    show Fields.update (.ofPairs _) (Fields.moved ρ fields) = _
    rw [Fields.update_moved, Fields.ofPairs_moved]
    unfold Fields.moved
    rw [List.map_cons, List.map_map, List.map_map, Value.moved_context]
    rfl
  · rw [hother v h, hother (v.moved ρ) (by rwa [Value.kind_moved])]
    rfl

/-- A moved value is answered with what is moved. -/
theorem answer_moved (reports : Bool) (v : Value) (o : Option Bool) :
    answer reports (v.moved ρ) o = (answer reports v o).moved ρ := by
  rcases o with _ | _ | _
  · rfl
  · rfl
  · cases reports <;> rfl

/-! ## Values without probes -/

namespace Value

mutual

/-- Whether a value has no probe, at any depth. -/
def probeFree : Value → Bool
  | .list items => probeFreeItems items
  | .context fields => probeFreeFields fields
  | .method receiver _ => probeFree receiver
  | .probe _ => false
  | _ => true

def probeFreeItems : List Value → Bool
  | [] => true
  | v :: rest => probeFree v && probeFreeItems rest

def probeFreeFields : List (String × Value) → Bool
  | [] => true
  | (_, v) :: rest => probeFree v && probeFreeFields rest

end

mutual

/-- **A value without probes stays as it is.** -/
theorem moved_eq_self : ∀ v : Value, v.probeFree = true → v.moved ρ = v
  | .list items, h => by rw [moved, movedItems_eq_self items h]
  | .context fields, h => by rw [moved, movedFields_eq_self fields h]
  | .method receiver name, h => by rw [moved, moved_eq_self receiver h]
  | .null, _ | .boolean _, _ | .number _, _ | .text _, _ | .date _, _ | .time _, _ | .moment _, _
  | .duration _, _ | .zone _, _ | .function _, _ | .procedure, _ => rfl

theorem movedItems_eq_self : ∀ items : List Value, probeFreeItems items = true → movedItems ρ items = items
  | [], _ => rfl
  | v :: rest, h => by
    obtain ⟨hv, hrest⟩ := Bool.and_eq_true_iff.1 h
    rw [movedItems, moved_eq_self v hv, movedItems_eq_self rest hrest]

theorem movedFields_eq_self : ∀ fields : List (String × Value), probeFreeFields fields = true →
    movedFields ρ fields = fields
  | [], _ => rfl
  | (key, v) :: rest, h => by
    obtain ⟨hv, hrest⟩ := Bool.and_eq_true_iff.1 h
    rw [movedFields, moved_eq_self v hv, movedFields_eq_self rest hrest]

end

end Value

/-- Fields without probes stay as they are. -/
theorem Fields.moved_eq_self {fields : Fields} (h : (Value.context fields).probeFree = true) :
    Fields.moved ρ fields = fields := by
  rw [← movedFields_eq]
  exact Value.movedFields_eq_self fields h

end Moved

end Criterion

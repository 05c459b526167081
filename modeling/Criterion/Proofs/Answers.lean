import Criterion.Proofs.Sites

/-!
# Functions and tests of moved values

Functions that compute with data look at no probe, and functions of lists only hand their elements on or
compare them. So a function answers moved arguments with the moved answer, and a moved test decides on a
moved value as the test does on the value.

* `apply_moved`: a builtin of moved arguments.
* `Eval.moved`: a run with the places in its calls and in its outcome moved.
* `match_moved`, `call_moved`: a moved probe and a moved function.
* `passes_moved`, `passesAny_moved`: moved tests pass the same values.
-/

namespace Criterion

variable {ρ : ℕ ↪ ℕ} {vs : List Value} {v w : Value}

open Value

/-! ## Functions of data -/

section Data

/-- What has no values in it stays as it is. -/
theorem map_moved_of_flat {x : Except Failure Value} (h : ∀ v, x = .ok v → v.isNested = false) :
    x.map (moved ρ) = x := by
  cases x with
  | error e => rfl
  | ok v => exact congrArg Except.ok (moved_of_flat (h v rfl))

theorem map_moved_of_map {α : Type} (x : Except Failure α) {f : α → Value} (hf : ∀ a, (f a).moved ρ = f a) :
    (x.map f).map (moved ρ) = x.map f := by
  cases x with
  | error e => rfl
  | ok a => exact congrArg Except.ok (hf a)

theorem decimal_moved (n places : Value) :
    Library.decimal (n.moved ρ) (places.moved ρ) = (Library.decimal n places).map (moved ρ) := by
  cases n with
  | number n =>
    cases places with
    | number p =>
      simp only [moved_number, Library.decimal]
      cases p.truncate with
      | error e => rfl
      | ok whole =>
        simp only [bind, Except.bind]
        split
        · cases n.round whole <;> rfl
        · rfl
    | _ => rfl
  | _ => rfl

theorem substring_moved (s start length : Value) :
    Library.substring (s.moved ρ) (start.moved ρ) (length.moved ρ) =
      (Library.substring s start length).map (moved ρ) := by
  cases s with
  | text s =>
    cases start with
    | number p =>
      simp only [moved_text, moved_number, Library.substring]
      split
      · rfl
      cases length with
      | null =>
        simp only [moved_null]
        cases Library.substring.offset s p <;> rfl
      | number n =>
        simp only [moved_number]
        split
        · rfl
        cases Library.substring.offset s p with
        | error e => rfl
        | ok offset =>
          simp only [bind, Except.bind]
          cases n.truncate <;> rfl
      | _ => rfl
    | _ => rfl
  | _ => rfl

theorem onTexts_moved (f : List Char → List Char → Bool) (v w : Value) :
    Library.onTexts f (v.moved ρ) (w.moved ρ) = (Library.onTexts f v w).moved ρ := by
  cases v with
  | text s => cases w <;> rfl
  | _ => rfl

theorem string_moved (v : Value) : Library.string (v.moved ρ) = (Library.string v).map (moved ρ) := by
  have hplain : (v.moved ρ).plainText.map Value.text = (v.plainText.map Value.text).map (moved ρ) := by
    rw [plainText_moved, map_moved_of_map _ moved_text]
  cases v with
  | null | boolean b => rfl
  | _ => exact hplain

theorem numbers_moved (vs : List Value) : Library.numbers? (vs.map (moved ρ)) = Library.numbers? vs := by
  induction vs with
  | nil => rfl
  | cons v rest ih =>
    cases v with
    | number n =>
      rw [List.map_cons, moved_number, Library.numbers?, Library.numbers?, ih]
    | _ => rfl

theorem items_moved (vs : List Value) :
    Library.items (vs.map (moved ρ)) = (Library.items vs).map (moved ρ) := by
  rcases vs with _ | ⟨v, _ | ⟨w, rest⟩⟩
  · rfl
  · cases v with
    | list items => exact movedItems_eq items
    | _ => rfl
  · rw [List.map_cons, List.map_cons, Library.items, Library.items]
    · rw [List.map_cons, List.map_cons]
    all_goals simp

theorem operands_moved (vs : List Value) :
    Library.operands? (vs.map (moved ρ)) = Library.operands? vs := by
  rw [Library.operands?, Library.operands?, items_moved, numbers_moved]

theorem orNull_moved (ns : Option (List Number)) (f : List Number → Except Failure Number) :
    (Builtin.apply.orNull ns f).map (moved ρ) = Builtin.apply.orNull ns f := by
  cases ns with
  | none => rfl
  | some ns => exact map_moved_of_map _ moved_number

theorem dateOfParts_moved (parts : List Number) :
    (Library.dateOfParts parts).map (moved ρ) = Library.dateOfParts parts := by
  refine map_moved_of_flat fun v h => ?_
  have hdate : ∀ o : Option Date, (Value.ofOption (o.map .date)).isNested = false := by
    intro o
    cases o <;> rfl
  unfold Library.dateOfParts at h
  split at h
  · cases h
    rfl
  · cases h
  · split at h
    · cases h
    split at h
    · split at h
      · cases h
        rfl
      · cases h
        exact hdate _
    · cases h
      rfl

theorem dateOf_moved (v : Value) : Library.dateOf (v.moved ρ) = (Library.dateOf v).moved ρ := by
  cases v with
  | text s => exact (moved_ofOption_map _ fun _ => rfl).symm
  | _ => rfl

theorem date_moved (vs : List Value) :
    Library.date (vs.map (moved ρ)) = (Library.date vs).map (moved ρ) := by
  rcases vs with _ | ⟨y, _ | ⟨m, _ | ⟨d, _ | ⟨v, rest⟩⟩⟩⟩
  · rfl
  · exact congrArg Except.ok (dateOf_moved y)
  · rfl
  · have hnumbers := numbers_moved (ρ := ρ) [y, m, d]
    simp only [List.map_cons, List.map_nil] at hnumbers
    simp only [List.map_cons, List.map_nil, Library.date]
    rw [hnumbers]
    cases Library.numbers? [y, m, d] with
    | none => rfl
    | some parts => exact (dateOfParts_moved parts).symm
  · simp only [List.map_cons, Library.date, List.length_cons, List.length_map]
    rfl

theorem timeOf_moved (v : Value) : Library.timeOf (v.moved ρ) = (Library.timeOf v).moved ρ := by
  cases v with
  | text s => exact (moved_ofOption_map _ fun _ => rfl).symm
  | _ => rfl

theorem momentOf_moved (v : Value) : Library.momentOf (v.moved ρ) = (Library.momentOf v).moved ρ := by
  cases v with
  | text s => exact (moved_ofOption_map _ fun _ => rfl).symm
  | _ => rfl

theorem number_moved (v : Value) : Library.number (v.moved ρ) = (Library.number v).moved ρ := by
  cases v with
  | text s => exact (moved_ofOption_map _ moved_number).symm
  | _ => rfl

end Data

/-! ## Functions of lists -/

section Lists

mutual

theorem leaves_moved : ∀ v : Value, Library.leaves (v.moved ρ) = (Library.leaves v).map (moved ρ)
  | .list items => flatten_moved items
  | .null | .boolean _ | .number _ | .text _ | .date _ | .time _ | .moment _ | .duration _ | .zone _
  | .context _ | .function _ | .method .. | .probe _ | .procedure => rfl

theorem flatten_moved : ∀ items : List Value,
    Library.flatten (movedItems ρ items) = (Library.flatten items).map (moved ρ)
  | [] => rfl
  | v :: rest => by
    rw [movedItems, Library.flatten, Library.flatten, leaves_moved v, flatten_moved rest, List.map_append]

end

theorem distinct_moved (items : List Value) :
    Library.distinct (items.map (moved ρ)) = (Library.distinct items).map (moved ρ) := by
  have hfold : ∀ us kept : List Value,
      (us.map (moved ρ)).foldl (fun kept v => if v.isAmong kept then kept else kept ++ [v])
          (kept.map (moved ρ)) =
        (us.foldl (fun kept v => if v.isAmong kept then kept else kept ++ [v]) kept).map (moved ρ) := by
    intro us
    induction us with
    | nil => exact fun kept => rfl
    | cons u us ih =>
      intro kept
      rw [List.map_cons, List.foldl_cons, List.foldl_cons, isAmong_moved]
      split
      · exact ih kept
      · rw [← ih (kept ++ [u]), List.map_append]
        rfl
  exact hfold items []

theorem positions_moved (v : Value) (items : List Value) (next : ℕ) :
    Library.positions (v.moved ρ) next (items.map (moved ρ)) = Library.positions v next items := by
  induction items generalizing next with
  | nil => rfl
  | cons w rest ih => rw [List.map_cons, Library.positions, Library.positions, eqv_moved, ih]

theorem concatenate_moved (vs : List Value) :
    Library.concatenate? (vs.map (moved ρ)) = (Library.concatenate? vs).map (List.map (moved ρ)) := by
  induction vs with
  | nil => rfl
  | cons v rest ih =>
    cases v with
    | list items =>
      rw [List.map_cons, moved_list, Library.concatenate?, Library.concatenate?, ih]
      cases Library.concatenate? rest with
      | none => rfl
      | some others => exact congrArg some (List.map_append ..).symm
    | _ => rfl

end Lists

/-- **A builtin answers moved arguments with the moved answer.** -/
theorem apply_moved (b : Builtin) (vs : List Value) :
    b.apply (vs.map (moved ρ)) = (b.apply vs).map (moved ρ) := by
  cases b with
  -- of one value: a number or a text, or any value
  | abs | floor | ceiling | negation | stringLength | upperCase | lowerCase =>
    rcases vs with _ | ⟨v, _ | ⟨w, rest⟩⟩
    · rfl
    · cases v with
      | number n => first
        | rfl
        | exact (map_moved_of_map _ moved_whole).symm
      | _ => rfl
    · cases v <;> rfl
  | string =>
    rcases vs with _ | ⟨v, _ | ⟨w, rest⟩⟩
    · rfl
    · exact string_moved v
    · rfl
  | number =>
    rcases vs with _ | ⟨v, _ | ⟨w, rest⟩⟩
    · rfl
    · exact congrArg Except.ok (number_moved v)
    · rfl
  | time =>
    rcases vs with _ | ⟨v, _ | ⟨w, rest⟩⟩
    · rfl
    · exact congrArg Except.ok (timeOf_moved v)
    · rfl
  | dateAndTime =>
    rcases vs with _ | ⟨v, _ | ⟨w, rest⟩⟩
    · rfl
    · exact congrArg Except.ok (momentOf_moved v)
    · rfl
  -- of two texts, or of numbers
  | decimal =>
    rcases vs with _ | ⟨v, _ | ⟨w, _ | ⟨u, rest⟩⟩⟩
    · rfl
    · rfl
    · exact decimal_moved v w
    · rfl
  | contains | startsWith | endsWith =>
    rcases vs with _ | ⟨v, _ | ⟨w, _ | ⟨u, rest⟩⟩⟩
    · rfl
    · rfl
    · exact congrArg Except.ok (onTexts_moved _ v w)
    · rfl
  | substring =>
    rcases vs with _ | ⟨v, _ | ⟨w, _ | ⟨u, _ | ⟨t, rest⟩⟩⟩⟩
    · rfl
    · rfl
    · exact substring_moved v w .null
    · exact substring_moved v w u
    · simp only [List.map_cons, Builtin.apply, List.length_cons, List.length_map]
      rfl
  | sum | mean =>
    simp only [Builtin.apply, operands_moved, orNull_moved]
  | min | max =>
    simp only [Builtin.apply, operands_moved]
    exact congrArg Except.ok (moved_ofOption_map _ moved_number).symm
  | date => exact date_moved vs
  -- of a list
  | count =>
    rcases vs with _ | ⟨v, _ | ⟨w, rest⟩⟩
    · rfl
    · cases v with
      | list items =>
        show Except.ok (Value.whole (movedItems ρ items).length) = .ok (.whole items.length)
        rw [movedItems_eq, List.length_map]
      | _ => rfl
    · cases v <;> rfl
  | reverse =>
    rcases vs with _ | ⟨v, _ | ⟨w, rest⟩⟩
    · rfl
    · cases v with
      | list items =>
        show Except.ok (Value.list (movedItems ρ items).reverse) = .ok ((Value.list items.reverse).moved ρ)
        rw [movedItems_eq, moved_list, List.map_reverse]
      | _ => rfl
    · cases v <;> rfl
  | distinctValues =>
    rcases vs with _ | ⟨v, _ | ⟨w, rest⟩⟩
    · rfl
    · cases v with
      | list items =>
        show Except.ok (Value.list (Library.distinct (movedItems ρ items))) =
          .ok ((Value.list (Library.distinct items)).moved ρ)
        rw [movedItems_eq, moved_list, distinct_moved]
      | _ => rfl
    · cases v <;> rfl
  | flatten =>
    rcases vs with _ | ⟨v, _ | ⟨w, rest⟩⟩
    · rfl
    · cases v with
      | list items =>
        show Except.ok (Value.list (Library.flatten (movedItems ρ items))) =
          .ok ((Value.list (Library.flatten items)).moved ρ)
        rw [flatten_moved, moved_list]
      | _ => rfl
    · cases v <;> rfl
  | listContains =>
    rcases vs with _ | ⟨v, _ | ⟨w, _ | ⟨u, rest⟩⟩⟩
    · rfl
    · cases v <;> rfl
    · cases v with
      | list items =>
        show Except.ok (Value.boolean ((w.moved ρ).isAmong (movedItems ρ items))) =
          .ok (.boolean (w.isAmong items))
        rw [movedItems_eq, isAmong_moved]
      | _ => rfl
    · cases v <;> rfl
  | indexOf =>
    rcases vs with _ | ⟨v, _ | ⟨w, _ | ⟨u, rest⟩⟩⟩
    · rfl
    · cases v <;> rfl
    · cases v with
      | list items =>
        have hmap : ((Library.positions w 1 items).map fun i : ℕ => Value.whole i).map (moved ρ) =
            (Library.positions w 1 items).map fun i : ℕ => Value.whole i := by
          rw [List.map_map]
          rfl
        show Except.ok (Value.list ((Library.positions (w.moved ρ) 1 (movedItems ρ items)).map _)) =
          .ok ((Value.list ((Library.positions w 1 items).map _)).moved ρ)
        rw [movedItems_eq, positions_moved, moved_list, hmap]
      | _ => rfl
    · cases v <;> rfl
  | append =>
    rcases vs with _ | ⟨v, rest⟩
    · rfl
    · cases v with
      | list items =>
        show Except.ok (Value.list (movedItems ρ items ++ rest.map (moved ρ))) =
          .ok ((Value.list (items ++ rest)).moved ρ)
        rw [movedItems_eq, moved_list, List.map_append]
      | _ => rfl
  | concatenate =>
    simp only [Builtin.apply, concatenate_moved]
    show Except.ok _ = Except.ok _
    rw [moved_ofOption, Option.map_map, Option.map_map]
    refine congrArg (fun f => Except.ok (Value.ofOption ((Library.concatenate? vs).map f))) ?_
    funext items
    exact (moved_list items).symm

/-! ## Runs -/

/-- The run with the places in its calls moved, and its result taken by `g`. -/
def Eval.moved {α β : Type} (ρ : ℕ ↪ ℕ) (g : α → β) (r : Eval α) : Eval β :=
  ⟨r.events.map (List.map (Value.moved ρ)), r.outcome.map g⟩

namespace Eval

variable {α α' β β' : Type} {g : β → β'}

theorem moved_pure (b : β) : Eval.moved ρ g (pure b) = pure (g b) := rfl

theorem moved_ofExcept (x : Except Failure β) :
    Eval.moved ρ g (Run.ofExcept x) = Run.ofExcept (x.map g) := rfl

/-- One run after the other: both parts are moved. -/
theorem moved_bind {r : Eval α} {r' : Eval α'} {f : α → Eval β} {f' : α' → Eval β'} {k : α → α'}
    (hr : r' = Eval.moved ρ k r) (hf : ∀ a, f' (k a) = Eval.moved ρ g (f a)) :
    (r' >>= f') = Eval.moved ρ g (r >>= f) := by
  subst hr
  obtain ⟨events, e | a⟩ := r
  · rfl
  · have hnext : f' (k a) = Eval.moved ρ g (f a) := hf a
    show (⟨_ ++ (f' (k a)).events, (f' (k a)).outcome⟩ : Eval β') = _
    rw [hnext]
    show _ = (⟨(events ++ (f a).events).map _, _⟩ : Eval β')
    rw [List.map_append]
    rfl

/-- A run of some results: what is done with each of them is moved. -/
theorem moved_map {r : Eval α} {r' : Eval α'} {f : α → β} {f' : α' → β'} {k : α → α'}
    (hr : r' = Eval.moved ρ k r) (hf : ∀ a, f' (k a) = g (f a)) :
    (do return f' (← r')) = Eval.moved ρ g (do return f (← r)) :=
  moved_bind hr fun a => congrArg pure (hf a)

variable {γ γ' : Type} {h : γ → γ'}

/-- Two runs, and what is done with both results. -/
theorem moved_map₂ {r : Eval α} {r' : Eval α'} {q : Eval β} {q' : Eval β'} {f : α → β → γ}
    {f' : α' → β' → γ'} {k : α → α'} (hr : r' = Eval.moved ρ k r) (hq : q' = Eval.moved ρ g q)
    (hf : ∀ a b, f' (k a) (g b) = h (f a b)) :
    (do
      let a ← r'
      return f' a (← q')) = Eval.moved ρ h (do
      let a ← r
      return f a (← q)) :=
  moved_bind hr fun a => moved_map hq (hf a)

end Eval

theorem movedProbe_relation (site : ℕ) (op : Relation) (operand : Eval Value) (reports : Bool) :
    movedProbe ρ (.relation site op operand reports) =
      .relation (ρ site) op (Eval.moved ρ (moved ρ) operand) reports := by
  obtain ⟨events, e | v⟩ := operand
  · rw [movedProbe, movedCalls_eq]
    rfl
  · rw [movedProbe, movedCalls_eq]
    rfl

theorem movedProbe_interval (site : ℕ) (bounds : Interval Value) (reports : Bool) :
    movedProbe ρ (.interval site bounds reports) = .interval (ρ site) (bounds.moved ρ) reports := rfl

/-! ## Calls and tests -/

theorem match_moved (p : Probe Value) (v : Value) :
    (movedProbe ρ p).match (v.moved ρ) = Eval.moved ρ (moved ρ) (p.match v) := by
  cases p with
  | relation site op operand reports =>
    rw [movedProbe_relation]
    refine Eval.moved_map rfl fun w => ?_
    rw [compare_moved, answer_moved]
  | interval site bounds reports =>
    rw [movedProbe_interval]
    refine Eval.moved_map (k := id) ?_ fun outcome => answer_moved reports v outcome
    rw [Eval.moved_ofExcept, includes_moved]
    cases bounds.includes v <;> rfl

theorem loneMethod_moved (receiver : Value) (name : String) :
    (receiver.moved ρ).loneMethod? name = receiver.loneMethod? name := by
  cases receiver <;> rfl

/-- A list's functions compare its elements with their argument. -/
theorem listMethod_moved (items : List Value) (name : String) (arguments : List Value) :
    listMethod (items.map (moved ρ)) name (arguments.map (moved ρ)) =
      (listMethod items name arguments).map (moved ρ) := by
  have hcount : ∀ u : Value, (items.map (moved ρ)).countP (·.eqv (u.moved ρ)) = items.countP (·.eqv u) := by
    intro u
    rw [List.countP_map]
    exact List.countP_congr fun w _ => by rw [Function.comp_apply, eqv_moved]
  have hfind : ∀ u : Value,
      (items.map (moved ρ)).findIdx? (·.eqv (u.moved ρ)) = items.findIdx? (·.eqv u) := by
    intro u
    rw [List.findIdx?_map]
    exact congrArg (List.findIdx? · items) (funext fun w => eqv_moved w u)
  rcases arguments with _ | ⟨u, _ | ⟨w, rest⟩⟩
  · rfl
  · show listMethod _ name [u.moved ρ] = _
    unfold listMethod
    dsimp only
    rw [hcount, hfind]
    split
    · rfl
    · cases items.findIdx? (·.eqv u) <;> rfl
    · rfl
  · rfl

theorem textMethod_moved (s name : String) (arguments : List Value) :
    textMethod s name (arguments.map (moved ρ)) = (textMethod s name arguments).map (moved ρ) := by
  rcases arguments with _ | ⟨u, _ | ⟨w, rest⟩⟩
  · rfl
  · cases u with
    | text t =>
      show textMethod s name [.text t] = _
      unfold textMethod
      split <;> split <;> rfl
    | _ => rfl
  · cases u <;> rfl

theorem zoneMethod_moved (o : Offset) (name : String) (arguments : List Value) :
    zoneMethod o name (arguments.map (moved ρ)) = (zoneMethod o name arguments).map (moved ρ) := by
  unfold zoneMethod
  cases h : offsetMethod? (some o) name with
  | none => rfl
  | some v =>
    have hflat : v.moved ρ = v := moved_of_flat (flat_of_offsetMethod h)
    rcases arguments with _ | ⟨u, _ | ⟨w, rest⟩⟩
    · rfl
    · cases u <;> first
        | rfl
        | exact congrArg Except.ok hflat.symm
    · cases u <;> rfl

theorem callBody_moved (f : Function) (arguments : List Value) :
    callBody f (arguments.map (moved ρ)) = (callBody f arguments).map (moved ρ) := by
  rcases arguments with _ | ⟨u, _ | ⟨w, rest⟩⟩
  · cases f <;> rfl
  · cases f with
    | builtin b => 
      cases u with
      | list vs =>
        rw [List.map_cons, moved_list]
        unfold callBody
        simp only [List.map_nil, List.length_map, apply_moved]
        split <;> rfl
      | _ => rfl
    | _ => cases u <;> rfl
  · cases f <;> cases u <;> rfl

theorem callMethod_moved (receiver : Value) (name : String) (arguments : List Value) :
    (receiver.moved ρ).callMethod name (arguments.map (moved ρ)) =
      (receiver.callMethod name arguments).map (moved ρ) := by
  unfold callMethod
  rw [loneMethod_moved]
  cases h : receiver.loneMethod? name with
  | some v =>
    dsimp only [answerAlone]
    rw [List.isEmpty_map]
    split
    · exact congrArg Except.ok (moved_of_flat (flat_of_loneMethod h)).symm
    · rfl
  | none =>
    cases receiver with
    | text s => exact textMethod_moved s name arguments
    | zone o => exact zoneMethod_moved o name arguments
    | list items =>
      rw [moved_list]
      dsimp only [argumentMethod]
      rw [List.length_map, listMethod_moved]
      split <;> rfl
    | function f => exact callBody_moved f arguments
    | time t | moment m =>
      dsimp only [argumentMethod, moved]
      rw [List.isEmpty_map]
      split <;> rfl
    | _ => rfl

/-- **A moved function answers moved arguments with the moved answer, and makes the moved calls.** -/
theorem call_moved (f : Value) (vs : List Value) :
    (f.moved ρ).call (vs.map (moved ρ)) = Eval.moved ρ (moved ρ) (f.call vs) := by
  cases f with
  | function f =>
    cases f with
    | builtin b =>
      refine Eval.moved_bind (k := id) ?_ fun _ => ?_
      · rw [List.length_map, Eval.moved_ofExcept]
        cases b.arity.check b.name vs.length <;> rfl
      · rw [apply_moved, Eval.moved_ofExcept]
    | echo name arity =>
      refine Eval.moved_bind (k := id) ?_ fun _ => ?_
      · rw [List.length_map, Eval.moved_ofExcept]
        cases arity.check name vs.length <;> rfl
      · rw [Eval.moved_pure, moved_list]
    | recorder =>
      refine Eval.moved_bind (k := id) rfl fun _ => ?_
      rw [Eval.moved_pure, moved_ofOption, List.head?_map]
  | method receiver name =>
    show Run.ofExcept _ = Eval.moved ρ _ (Run.ofExcept _)
    rw [callMethod_moved, Eval.moved_ofExcept]
  | probe p =>
    rcases vs with _ | ⟨v, _ | ⟨w, rest⟩⟩
    · rfl
    · exact match_moved p v
    · rfl
  | _ => rfl

theorem passes_moved (v test : Value) :
    (v.moved ρ).passes (test.moved ρ) = Eval.moved ρ id (v.passes test) := by
  have hother : (pure ((test.moved ρ).eqv (v.moved ρ)) : Eval Bool) =
      Eval.moved ρ id (pure (test.eqv v)) := by
    rw [eqv_moved, Eval.moved_pure]
    rfl
  cases test with
  | probe p => exact Eval.moved_map (match_moved p v) fun w => isNonzero_moved w
  | _ => exact hother

/-- **Moved tests pass the moved values that the tests pass.** -/
theorem passesAny_moved (v : Value) (tests : List Value) :
    (v.moved ρ).passesAny (tests.map (moved ρ)) = Eval.moved ρ id (v.passesAny tests) := by
  induction tests with
  | nil => rfl
  | cons test rest ih =>
    refine Eval.moved_bind (passes_moved v test) fun passed => ?_
    cases passed with
    | true => rfl
    | false => exact ih

end Criterion

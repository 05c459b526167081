import Criterion.Proofs.Telling

/-!
# Names and loops in memory

A scope is held as layers of what its values are held as. Names, fields, loops and filters go through the layers
of a memory in step with the scopes of values: they look up what tells what is looked up there, and a body that
runs as values tell in such layers is run as often and in the same order.

* `Memory.TellsLayers`: layers that a memory tells a scope of.
* `Memory.Offers`: a value that is told, or a test that is asked as its probe says.
* `resolveName_runs`, `passesAny_runs`: names and the tests of a value.
* `collect_runs`, `decide_runs`, `select_runs`: **loops, quantifiers and filters run as values tell if their bodies
  do.**
-/

namespace Criterion

open Act

section Names

variable {m m' : Memory} {bound : Nat} {h : Held} {v : Value} {hs : List Held} {vs : List Value}
  {fields : HeldFields} {entries : Fields} {layers : HeldLayers} {scope : Scope}

/-! ## Fields -/

theorem get_tells (hfields : m.TellsFields fields entries) (key : String) :
    Option.Rel m.Tells (fields.get? key) (entries.get? key) := by
  unfold HeldFields.get? Fields.get?
  induction hfields with
  | nil => exact .none
  | @cons p q _ _ hpq _ ih =>
    obtain ⟨k, h⟩ := p
    obtain ⟨k', v⟩ := q
    obtain ⟨rfl, hv⟩ := hpq
    dsimp only at hv
    rw [List.lookup_cons, List.lookup_cons]
    cases key == k with
    | true => exact .some hv
    | false => exact ih

theorem put_tells (key : String) (hv : m.Tells h v) (hfields : m.TellsFields fields entries) :
    m.TellsFields (HeldFields.put key h fields) (Fields.put key v entries) := by
  induction hfields with
  | nil => exact .cons ⟨rfl, hv⟩ .nil
  | @cons p q _ _ hpq hrest ih =>
    obtain ⟨k, g⟩ := p
    obtain ⟨k', w⟩ := q
    obtain ⟨rfl, hw⟩ := hpq
    unfold HeldFields.put Fields.put
    split
    · exact .cons ⟨rfl, hv⟩ hrest
    · exact .cons ⟨rfl, hw⟩ ih

theorem update_tells {pairs : HeldFields} {others : Fields} (hpairs : m.TellsFields pairs others)
    (hfields : m.TellsFields fields entries) :
    m.TellsFields (HeldFields.update fields pairs) (Fields.update entries others) := by
  induction hpairs generalizing fields entries with
  | nil => exact hfields
  | @cons p q _ _ hpq _ ih =>
    obtain ⟨k, g⟩ := p
    obtain ⟨k', w⟩ := q
    obtain ⟨rfl, hw⟩ := hpq
    exact ih (put_tells k hw hfields)

theorem ofPairs_tells (hfields : m.TellsFields fields entries) :
    m.TellsFields (HeldFields.ofPairs fields) (Fields.ofPairs entries) := update_tells hfields .nil

theorem listless_field {w : Value} {name : String} (hw : w.isListless = true) : (w.field name).isListless = true := by
  unfold Value.field
  split
  · cases hw
  · rename_i hcontext
    split
    · rfl
    split
    · cases w <;> first | rfl | cases hw
    · cases hown : w.ownField? name with
      | none => rfl
      | some u => exact listless_of_flat (flat_of_ownField hown)

/-- Fields are held as they are told. -/
theorem field_tells (hv : m.Tells h v) (name : String) : m.Tells (h.field name) (v.field name) := by
  cases h with
  | plain w =>
    cases hv with
    | plain hlistless => exact .plain (listless_field hlistless)
  | list place =>
    obtain ⟨hlt, hs, vs, hplace, hall, rfl⟩ := Memory.holds_list.1 hv
    have htold : (Value.list vs).field name =
        if name.toList.head? = some '_' ∨ listMethods.contains name = false then .null
        else .method (.list vs) name := by
      show (if name.toList.head? = some '_' then Value.null
        else if listMethods.contains name then .method (.list vs) name else .null) = _
      cases listMethods.contains name <;> simp
    have hheld : (Held.list place).field name =
        if name.toList.head? = some '_' ∨ listMethods.contains name = false then .plain .null
        else .function place name := by
      show (if name.toList.head? = some '_' || !listMethods.contains name then Held.plain .null
        else .function place name) = _
      simp
    rw [htold, hheld]
    split
    · exact .plain rfl
    · exact Memory.holds_function.2 ⟨hlt, hs, vs, hplace, hall, rfl⟩
  | function place function =>
    obtain ⟨-, _, ws, -, -, rfl⟩ := Memory.holds_function.1 hv
    have hnull : (Value.method (.list ws) function).field name = .null := ite_self Value.null
    rw [hnull]
    exact .plain rfl
  | context fields =>
    obtain ⟨entries, hall, rfl⟩ := Memory.holds_context.1 hv
    have hget := get_tells hall name
    show m.Tells ((HeldFields.get? fields name).getD (.plain .null)) (.ofOption (entries.get? name))
    generalize HeldFields.get? fields name = o at hget
    generalize Fields.get? entries name = o' at hget
    cases hget with
    | some hw => exact hw
    | none => exact .plain rfl
  | relation serial op operand layers => cases hv
  | interval serial bounds layers => cases hv

theorem fieldOrFields_runs (hv : m.Tells h v) (name : String) :
    RunsAs m (h.fieldOrFields name) (pure (v.fieldOrFields name)) Memory.Tells := by
  by_cases hlist : ∃ place, h = .list place
  · obtain ⟨place, rfl⟩ := hlist
    obtain ⟨vs, rfl, hall⟩ := Memory.tells_list hv
    have hfields : List.Forall₂ m.Tells ((m.items place).map (·.field name)) (vs.map (·.field name)) :=
      List.rel_map (fun g w (hw : m.Tells g w) => field_tells hw name) hall
    exact .of_eq (bind_reads _) (alloc_runs hfields)
  · have hheld : h.fieldOrFields name = pure (h.field name) := by
      unfold Held.fieldOrFields
      split
      · exact absurd ⟨_, rfl⟩ hlist
      · rfl
    have htold : v.fieldOrFields name = v.field name := by
      unfold Value.fieldOrFields
      split
      · obtain ⟨place, rfl, -⟩ := list_of_tells hv
        exact absurd ⟨place, rfl⟩ hlist
      · rfl
    rw [hheld, htold]
    exact .pure (field_tells hv name)

theorem nothing_runs : RunsAs m Held.nothing (pure Value.null : Eval Value) Memory.Tells := plain_runs rfl

theorem path_runs (names : List String) (hv : m.Tells h v) :
    RunsAs m (Held.path names h) (pure (names.foldl Value.fieldOrFields v)) Memory.Tells := by
  induction names generalizing m h v with
  | nil => exact .pure hv
  | cons name rest ih => exact (fieldOrFields_runs hv name).bind fun m' g w _ hw => ih hw

/-- A filter's layer for an element. -/
theorem itemLayer_tells (hv : m.Tells h v) : m.TellsFields h.itemLayer v.itemLayer := by
  by_cases hcontext : ∃ fields, h = .context fields
  · obtain ⟨fields, rfl⟩ := hcontext
    obtain ⟨entries, hall, rfl⟩ := Memory.holds_context.1 hv
    have hfields : List.Forall₂ (fun p q => p.1 = q.1 ∧ m.Tells p.2 q.2) fields entries := hall
    refine update_tells hall (ofPairs_tells (.cons ⟨rfl, hv⟩ ?_))
    exact List.rel_map (fun _ _ hpq => ⟨congrArg ("item." ++ ·) hpq.1, hpq.2⟩) hfields
  · have hheld : h.itemLayer = [("item", h)] := by
      unfold Held.itemLayer
      split
      · exact absurd ⟨_, rfl⟩ hcontext
      · rfl
    have htold : v.itemLayer = [("item", v)] := by
      unfold Value.itemLayer
      split
      · rename_i entries
        obtain ⟨fields, rfl⟩ := Memory.held_of_context hv
        exact absurd ⟨fields, rfl⟩ hcontext
      · rfl
    rw [hheld, htold]
    exact .cons ⟨rfl, hv⟩ .nil

/-! ## Scopes -/

/-- The layers of a scope are told. -/
def Memory.TellsLayers (m : Memory) (layers : HeldLayers) (scope : Scope) : Prop :=
  List.Forall₂ m.TellsFields layers scope.layers

theorem Memory.TellsLayers.grows (hlayers : m.TellsLayers layers scope) (hgrows : m.Grows m') :
    m'.TellsLayers layers scope :=
  List.Forall₂.imp (fun _ _ hfields => Memory.HoldsFields.grows hfields hgrows) hlayers

theorem Memory.TellsLayers.extend (hlayers : m.TellsLayers layers scope) (hfields : m.TellsFields fields entries) :
    m.TellsLayers (fields :: layers) (scope.extend entries) := .cons hfields hlayers

theorem layersGet_tells (hlayers : m.TellsLayers layers scope) (name : String) :
    Option.Rel m.Tells (layers.get? name) (scope.get? name) := by
  unfold HeldLayers.get? Scope.get?
  obtain ⟨told⟩ := scope
  change List.Forall₂ m.TellsFields layers told at hlayers
  induction hlayers with
  | nil => exact .none
  | @cons fields entries _ _ hfields _ ih =>
    have hget := get_tells hfields name
    rw [List.findSome?_cons, List.findSome?_cons]
    generalize HeldFields.get? fields name = o at hget
    generalize Fields.get? entries name = o' at hget
    cases hget with
    | some hw => exact .some hw
    | none => exact ih

theorem get_or_null {o : Option Held} {o' : Option Value} (hget : Option.Rel m.Tells o o') :
    m.Tells (o.getD (.plain .null)) (.ofOption o') := by
  cases hget with
  | some hw => exact hw
  | none => exact .plain rfl

/-- Whether tests answer with the matched value. -/
theorem bind_reports {α : Type} {k : Bool → Deed α} (hlayers : m.TellsLayers layers scope) :
    (layers.reports >>= k) m = k scope.reports m := by
  refine bind_read ?_
  have hreport := (get_or_null (layersGet_tells hlayers Scope.reportKey)).outline.2.1
  show (m, Run.pure (m.outline (layers.get Scope.reportKey)).isNonzero) = _
  unfold HeldLayers.get
  rw [hreport]
  rfl

theorem resolve_runs (hlayers : m.TellsLayers layers scope) (name : String) :
    RunsAs m (layers.resolve name) (pure (scope.resolve name)) Memory.Tells := by
  unfold HeldLayers.resolve Scope.resolve
  have hwhole := layersGet_tells hlayers name
  generalize layers.get? name = o at hwhole
  generalize scope.get? name = o' at hwhole
  cases hwhole with
  | some hw => exact .pure hw
  | none =>
    generalize Scope.segments name = parts
    obtain ⟨head, _ | ⟨part, rest⟩⟩ := parts
    · exact nothing_runs
    · dsimp only
      split
      · exact nothing_runs
      · have hhead := layersGet_tells hlayers head
        generalize layers.get? head = o at hhead
        generalize scope.get? head = o' at hhead
        cases hhead with
        | some hw => exact path_runs (part :: rest) hw
        | none => exact nothing_runs

/-- **A name resolves to what tells its value.** -/
theorem resolveName_runs (hregistry : m.TellsFields fields entries) (hlayers : m.TellsLayers layers scope)
    (name : String) :
    RunsAs m (layers.resolveName fields name) (pure (resolveName entries scope name)) Memory.Tells := by
  unfold HeldLayers.resolveName resolveName
  have hget := get_tells hregistry name
  generalize HeldFields.get? fields name = o at hget
  generalize Fields.get? entries name = o' at hget
  cases hget with
  | none => exact resolve_runs hlayers name
  | @some g w hw =>
    by_cases hnull : w = .null
    · subst hnull
      rw [Memory.held_of_listless hw rfl]
      exact resolve_runs hlayers name
    · have hheld : g ≠ .plain .null := by
        rintro rfl
        cases hw
        exact hnull rfl
      split
      · rename_i heq
        exact absurd (Option.some.inj heq) hheld
      · rename_i heq
        cases heq
        split
        · rename_i heq
          exact absurd (Option.some.inj heq) hnull
        · rename_i heq
          cases heq
          exact .pure hw
        · rename_i heq
          cases heq
      · rename_i heq
        cases heq

/-! ## Tests -/

theorem answer_runs (hlayers : m.TellsLayers layers scope) (hv : m.Tells h v) (outcome : Option Bool) :
    RunsAs m (Held.answer layers h outcome) (pure (answer scope.reports v outcome)) Memory.Tells := by
  unfold Held.answer answer
  cases outcome with
  | none => exact plain_runs rfl
  | some holds =>
    cases holds with
    | false => exact plain_runs rfl
    | true =>
      refine .of_eq (bind_reports hlayers) ?_
      dsimp only
      split
      · exact .pure hv
      · exact plain_runs rfl

theorem bind_compare {α : Type} {k : Option Bool → Deed α} {g : Held} {w : Value} (op : Relation)
    (hv : m.Tells h v) (hw : m.Tells g w) :
    (Held.compare? op h g >>= k) m = k (Value.compare? op v w) m := by
  refine bind_read ?_
  exact (bind_value hv).trans (bind_value hw)

theorem eqvHeld_eq {g : Held} {w : Value} (hv : m.Tells h v) (hw : m.Tells g w) :
    Held.eqv h g m = (pure (v.eqv w) : Deed Bool) m := (bind_value hv).trans (bind_value hw)

theorem bind_outline {α : Type} {k : Value → Deed α} (h : Held) : (Act.outline h >>= k) m = k (m.outline h) m :=
  bind_reads _

variable (ask : Held.Asking)

/-- What is held of a test: asked in a memory that has grown, its operand runs as the operand of the probe. -/
inductive Memory.Poses (m : Memory) : Held → Probe Value → Prop where
  | relation {serial site : Nat} {op : Relation} {operand : Expr} {layers : HeldLayers} {scope : Scope}
    {run : Eval Value} : (∀ m', m.Grows m' → RunsAs m' (ask operand layers) run Memory.Tells) →
      m.TellsLayers layers scope →
        Memory.Poses m (.relation serial op operand layers) (.relation site op run scope.reports)
  | interval {serial site : Nat} {g h : Held} {v w : Value} {includesStart includesStop : Bool}
    {layers : HeldLayers} {scope : Scope} : m.Tells g v → m.Tells h w → m.TellsLayers layers scope →
      Memory.Poses m (.interval serial ⟨g, h, includesStart, includesStop⟩ layers)
        (.interval site ⟨v, w, includesStart, includesStop⟩ scope.reports)

variable {ask} {test : Held} {p : Probe Value}

theorem Memory.Poses.grows (hp : m.Poses ask test p) (hgrows : m.Grows m') : m'.Poses ask test p := by
  cases hp with
  | relation hrun hlayers => exact .relation (fun m'' h => hrun m'' (hgrows.trans h)) (hlayers.grows hgrows)
  | interval hstart hstop hlayers =>
    exact .interval (hstart.grows hgrows) (hstop.grows hgrows) (hlayers.grows hgrows)

/-- **A test is answered in memory as its probe answers.** -/
theorem match_runs (hp : m.Poses ask test p) (hv : m.Tells h v) :
    ∃ answered, test.match? ask h = some answered ∧ RunsAs m answered (p.match v) Memory.Tells := by
  cases hp with
  | @relation serial site op operand layers scope run hrun hlayers =>
    refine ⟨_, rfl, (hrun m (.refl m)).bind fun m' g w hgrows hw => ?_⟩
    exact .of_eq (bind_compare op (hv.grows hgrows) hw) (answer_runs (hlayers.grows hgrows) (hv.grows hgrows) _)
  | @interval serial site g h' v' w c d layers scope hstart hstop hlayers =>
    refine ⟨_, rfl, ?_⟩
    refine .of_eq ((bind_value hv).trans ((bind_value hstart).trans (bind_value hstop))) ?_
    exact .ofExcept_bind fun outcome _ => answer_runs hlayers hv outcome

/-- What is told is no test. -/
theorem match_none (hv : m.Tells test v) (ask : Held.Asking) (h : Held) : test.match? ask h = none := by
  cases hv with
  | plain hlistless => cases v <;> first | rfl | cases hlistless
  | _ => rfl

variable (ask) in
/-- A value that is told, or a test. -/
inductive Memory.Offers (m : Memory) : Held → Value → Prop where
  | told {h : Held} {v : Value} : m.Tells h v → Memory.Offers m h v
  | test {h : Held} {p : Probe Value} : m.Poses ask h p → Memory.Offers m h (.probe p)

variable (ask) in
/-- A value that is told, a test, or a list of these. -/
inductive Memory.OffersAny (m : Memory) : Held → Value → Prop where
  | one {h : Held} {v : Value} : m.Offers ask h v → Memory.OffersAny m h v
  | list {place : Nat} {hs : List Held} {vs : List Value} : m.places[place]? = some hs →
      List.Forall₂ (m.Offers ask) hs vs → Memory.OffersAny m (.list place) (.list vs)

theorem Memory.Offers.grows (hv : m.Offers ask h v) (hgrows : m.Grows m') : m'.Offers ask h v := by
  cases hv with
  | told hv => exact .told (hv.grows hgrows)
  | test hp => exact .test (hp.grows hgrows)

/-- A list that is offered is told, and so are its elements. -/
theorem list_of_offers (hv : m.Offers ask h (.list vs)) :
    ∃ place hs, h = .list place ∧ m.places[place]? = some hs ∧ List.Forall₂ (m.Offers ask) hs vs := by
  cases hv with
  | told hv =>
    obtain ⟨place, rfl⟩ := Memory.held_of_list hv
    obtain ⟨hlt, hs, us, hplace, hall, hus⟩ := Memory.holds_list.1 hv
    cases hus
    exact ⟨place, hs, rfl, hplace,
      List.Forall₂.imp (fun _ _ hu => .told (hu.mono (.refl m) (Nat.le_of_lt hlt))) hall⟩

theorem Memory.OffersAny.grows (hv : m.OffersAny ask h v) (hgrows : m.Grows m') : m'.OffersAny ask h v := by
  cases hv with
  | one hv => exact .one (hv.grows hgrows)
  | list hplace hall => exact .list (hgrows.get hplace) (hall.imp fun _ _ hv => hv.grows hgrows)

/-- The same on both sides. -/
abbrev Same {α : Type} : Memory → α → α → Prop := fun _ a b => a = b

theorem isNonzero_runs (hv : m.Tells h v) : RunsAs m
    (do return (← Act.outline h).isNonzero) (pure v.isNonzero : Eval Bool) Same := by
  refine .of_eq (bind_outline h) ?_
  rw [hv.outline.2.1]
  exact .pure rfl

theorem passes_runs {w : Value} (hw : m.Offers ask test w) (hv : m.Tells h v) :
    RunsAs m (Held.passes ask h test) (v.passes w) Same := by
  unfold Held.passes
  cases hw with
  | told hw =>
    rw [match_none hw]
    have hequal : v.passes w = pure (w.eqv v) := by
      unfold Value.passes
      split
      · cases hw with
        | plain hlistless => cases hlistless
      · rfl
    rw [hequal]
    exact .of_eq (eqvHeld_eq hw hv) (.pure rfl)
  | test hp =>
    obtain ⟨answered, hmatch, hruns⟩ := match_runs hp hv
    rw [hmatch]
    exact hruns.bind fun m' g u _ hu => isNonzero_runs hu

/-! ### Going through a list -/

section Along

variable {σ : Type} {place : Nat} {visit : σ → Held → Deed (σ × Bool)} {fuel next : Nat} {s : σ}

theorem along_none (hplace : m.places[place]? = some hs) (hnext : hs[next]? = none) :
    Act.along place visit (fuel + 1) next s m = (pure s : Deed σ) m := by
  refine (bind_reads _).trans ?_
  have hitem : (m.items place)[next]? = none := by
    unfold Memory.items
    rwa [hplace]
  rw [hitem]

theorem along_some (hplace : m.places[place]? = some hs) (hnext : hs[next]? = some h) :
    Act.along place visit (fuel + 1) next s m = (do
      let (s, decided) ← visit s h
      if decided then return s else Act.along place visit fuel (next + 1) s) m := by
  refine (bind_reads _).trans ?_
  have hitem : (m.items place)[next]? = some h := by
    unfold Memory.items
    rwa [hplace]
  rw [hitem]

variable {τ ρ : Type} {walk : τ → List Value → Eval ρ} {R : Memory → σ → τ → Prop} {Q : Memory → σ → ρ → Prop}

variable (ask visit walk R Q) in
/-- Rounds through a list in memory that are those of its values. `R` relates where the two are; a round may end both
or go on with the rest. -/
structure WalksAs : Prop where
  ends : ∀ m s t, R m s t → RunsAs m (pure s) (walk t []) Q
  round : ∀ m s t h v rest (k : σ → Deed σ), R m s t → m.Offers ask h v →
    (∀ m' s' t', m.Grows m' → R m' s' t' → RunsAs m' (k s') (walk t' rest) Q) →
      RunsAs m (do
        let (s, decided) ← visit s h
        if decided then return s else k s) (walk t (v :: rest)) Q

theorem along_runs (hwalk : WalksAs ask visit walk R Q) {before rest : List Held} {t : τ}
    (hplace : m.places[place]? = some (before ++ rest)) (hrest : List.Forall₂ (m.Offers ask) rest vs)
    (hfuel : rest.length < fuel) (hR : R m s t) :
    RunsAs m (Act.along place visit fuel before.length s) (walk t vs) Q := by
  induction rest generalizing m before vs fuel s t with
  | nil =>
    obtain ⟨fuel, rfl⟩ : ∃ k, fuel = k + 1 := ⟨fuel - 1, by omega⟩
    cases hrest
    have hnext : (before ++ [])[before.length]? = none := by
      rw [List.append_nil, List.getElem?_eq_none (Nat.le_refl _)]
    exact .of_eq (along_none hplace hnext) (hwalk.ends m s t hR)
  | cons h rest ih =>
    obtain ⟨fuel, rfl⟩ : ∃ k, fuel = k + 1 := ⟨fuel - 1, by omega⟩
    cases hrest with
    | @cons _ v _ vs hv hrest =>
      have hnext : (before ++ h :: rest)[before.length]? = some h := by
        rw [List.getElem?_append_right (Nat.le_refl _), Nat.sub_self]
        rfl
      refine .of_eq (along_some hplace hnext) (hwalk.round m s t h v vs _ hR hv fun m' s' t' hgrows hR' => ?_)
      have hplace' : m'.places[place]? = some ((before ++ [h]) ++ rest) := by
        rw [List.append_assoc]
        exact hgrows.get hplace
      have hlater := ih hplace' (hrest.imp fun _ _ hu => hu.grows hgrows) (Nat.lt_of_succ_lt_succ hfuel) hR'
      rw [List.length_append] at hlater
      exact hlater

/-- **A list is gone through in memory as its values are.** The bound on the rounds is not reached while the list
stays as it is. -/
theorem through_runs (hwalk : WalksAs ask visit walk R Q) {t : τ} (hplace : m.places[place]? = some hs)
    (hall : List.Forall₂ (m.Offers ask) hs vs) (hR : R m s t) :
    RunsAs m (Act.through place visit s) (walk t vs) Q := by
  refine .of_eq (bind_reads _) ?_
  have hitems : m.items place = hs := by
    unfold Memory.items
    rw [hplace]
    rfl
  rw [hitems]
  have hplace' : m.places[place]? = some ([] ++ hs) := hplace
  exact along_runs hwalk hplace' hall (Nat.lt_add_of_pos_right (by decide)) hR

end Along

theorem through_passes {place : Nat} (hplace : m.places[place]? = some hs)
    (hall : List.Forall₂ (m.Offers ask) hs vs) (hv : m.Tells h v) :
    RunsAs m (Act.through place (fun _ test => do
      let passed ← Held.passes ask h test
      return (passed, passed)) false) (v.passesAny vs) Same := by
  have hwalk : WalksAs ask (fun _ test => do
      let passed ← Held.passes ask h test
      return (passed, passed)) (fun (_ : Unit) => v.passesAny) (fun m s _ => s = false ∧ m.Tells h v) Same := by
    refine ⟨?_, ?_⟩
    · rintro m s - ⟨rfl, -⟩
      exact .pure rfl
    · rintro m s - test w rest k ⟨rfl, hv⟩ hw hlater
      have hvisit : RunsAs m (do
          let passed ← Held.passes ask h test
          return (passed, passed)) (v.passes w) fun _ p b => p = (b, b) := by
        rw [← bind_pure (v.passes w)]
        refine (passes_runs hw hv).bind fun _ b b' _ hb => ?_
        subst hb
        exact .pure rfl
      refine hvisit.bind fun m' p b hgrows hp => ?_
      subst hp
      cases b with
      | true => exact .pure rfl
      | false => exact hlater m' false () hgrows ⟨rfl, hv.grows hgrows⟩
  exact through_runs hwalk (t := ()) hplace hall ⟨rfl, hv⟩

theorem elements_of_offersAny {place : Nat} {w : Value} (hw : m.OffersAny ask (.list place) w) :
    ∃ hs vs, w = .list vs ∧ m.places[place]? = some hs ∧ List.Forall₂ (m.Offers ask) hs vs := by
  cases hw with
  | one hw =>
    cases hw with
    | told hw =>
      obtain ⟨ws, rfl, -⟩ := Memory.tells_list hw
      obtain ⟨place', hs, heq, hplace, hall⟩ := list_of_offers (.told hw)
      cases heq
      exact ⟨hs, ws, rfl, hplace, hall⟩
    | test hp => cases hp
  | list hplace hall => exact ⟨_, _, rfl, hplace, hall⟩

/-- **A value passes one of some tests in memory if values tell so.** -/
theorem passesAny_runs {tests : Held} {w : Value} (hw : m.OffersAny ask tests w) (hv : m.Tells h v) :
    RunsAs m (Held.passesAny ask h tests) (v.passesAny w.elements) Same := by
  by_cases hlist : ∃ place, tests = .list place
  · obtain ⟨place, rfl⟩ := hlist
    obtain ⟨hs, ws, rfl, hplace, hall⟩ := elements_of_offersAny hw
    exact through_passes hplace hall hv
  · have hheld : Held.passesAny ask h tests = Held.passes ask h tests := by
      unfold Held.passesAny
      split
      · exact absurd ⟨_, rfl⟩ hlist
      · rfl
    cases hw with
    | list => exact absurd ⟨_, rfl⟩ hlist
    | one hw =>
      have htold : v.passesAny w.elements = v.passes w := by
        unfold Value.elements
        split
        · obtain ⟨place, -, rfl, -⟩ := list_of_offers hw
          exact absurd ⟨place, rfl⟩ hlist
        · have hpure : (fun b : Bool => if b then (pure true : Eval Bool) else pure false) = pure := by
            funext b
            cases b <;> rfl
          show (v.passes w >>= fun b => if b then pure true else pure false) = _
          rw [hpure, bind_pure]
      rw [hheld, htold]
      exact passes_runs hw hv

/-! ## Loops -/

theorem product_rel {α β : Type} {R : α → β → Prop} {choices : List (List α)} {told : List (List β)}
    (h : List.Forall₂ (List.Forall₂ R) choices told) :
    List.Forall₂ (List.Forall₂ R) (product choices) (product told) := by
  induction h with
  | nil => exact .cons .nil .nil
  | cons hfirst _ ih =>
    exact List.rel_flatMap hfirst fun a b hab => List.rel_map (fun _ _ hrest => .cons hab hrest) ih

/-- The names of a loop with the elements of their lists. -/
abbrev Memory.TellsDomains (m : Memory) : List (String × List Held) → List (String × List Value) → Prop :=
  List.Forall₂ fun d e => d.1 = e.1 ∧ m.TellsAll d.2 e.2

theorem loopLayers_tells {domains : List (String × List Held)} {told : List (String × List Value)}
    (hlayers : m.TellsLayers layers scope) (hdomains : m.TellsDomains domains told) :
    List.Forall₂ m.TellsLayers (loopLayers layers domains) (loopScopes scope told) := by
  refine List.rel_map (fun _ _ hpairs => hlayers.extend (ofPairs_tells hpairs)) (product_rel (List.rel_map ?_ hdomains))
  rintro ⟨name, hs⟩ ⟨name', vs⟩ ⟨rfl, hall⟩
  exact List.rel_map (fun h v hv => ⟨rfl, hv⟩) hall

/-- In all layers that tell a scope in a memory that has grown, a body runs as values tell. -/
def BodyRuns {α β : Type} (m : Memory) (body : HeldLayers → Deed α) (told : Scope → Eval β)
    (Q : Memory → α → β → Prop) : Prop :=
  ∀ m' layers scope, m.Grows m' → m'.TellsLayers layers scope → RunsAs m' (body layers) (told scope) Q

theorem BodyRuns.grows {α β : Type} {body : HeldLayers → Deed α} {told : Scope → Eval β}
    {Q : Memory → α → β → Prop} (hbody : BodyRuns m body told Q) (hgrows : m.Grows m') : BodyRuns m' body told Q :=
  fun m'' layers scope h => hbody m'' layers scope (hgrows.trans h)

variable {body : HeldLayers → Deed Held} {told : Scope → Eval Value} {all : List HeldLayers} {scopes : List Scope}

/-- **The rounds of a loop** see what the rounds before them have given. -/
theorem collect_runs (hbody : BodyRuns m body told Memory.Tells) (hall : List.Forall₂ m.TellsLayers all scopes)
    (hvs : m.TellsAll hs vs) : RunsAs m (collectHeld body hs all) (collect told vs scopes) Memory.TellsAll := by
  induction all generalizing m hs vs scopes with
  | nil =>
    cases hall
    exact .pure hvs
  | cons layers rest ih =>
    cases hall with
    | @cons _ scope _ others hlayers hrest =>
      have hround : collect told vs (scope :: others) = (pure (Value.list vs) : Eval Value) >>= fun w =>
          told (scope.extend [(partialKey, w)]) >>= fun v => collect told (vs ++ [v]) others := rfl
      rw [hround]
      refine (alloc_runs hvs).bind fun m₁ g w hgrows hw => ?_
      have hlayer : m₁.TellsFields [(partialKey, g)] [(partialKey, w)] := .cons ⟨rfl, hw⟩ .nil
      refine (hbody m₁ _ _ hgrows ((hlayers.grows hgrows).extend hlayer)).bind fun m₂ h v hgrows' hv => ?_
      have hafter := hgrows.trans hgrows'
      exact ih (hbody.grows hafter) (hrest.imp fun _ _ hl => hl.grows hafter)
        (List.rel_append (Memory.HoldsAll.grows hvs hafter) (.cons hv .nil))

/-- **The rounds of a quantifier** end with the one that decides. -/
theorem decide_runs (q : Quantifier) (hbody : BodyRuns m body told Memory.Tells)
    (hall : List.Forall₂ m.TellsLayers all scopes) :
    RunsAs m (decideHeld q body all) (decideQuantifier q told scopes) Same := by
  induction all generalizing m scopes with
  | nil =>
    cases hall
    exact .pure rfl
  | cons layers rest ih =>
    cases hall with
    | @cons _ scope _ others hlayers hrest =>
      refine (hbody m layers scope (.refl m) hlayers).bind fun m' h v hgrows hv => ?_
      have hlater := ih (hbody.grows hgrows) (hrest.imp fun _ _ hl => hl.grows hgrows)
      refine .of_eq (bind_outline h) ?_
      rw [hv.outline.2.2]
      cases q with
      | every =>
        dsimp only
        split
        · exact hlater
        · exact .pure rfl
      | some =>
        dsimp only
        split
        · exact .pure rfl
        · exact hlater

theorem domain_runs (name : String) (hv : m.Tells h v) :
    RunsAs m (domainHeld name h) (Run.ofExcept (domainOf name v)) Memory.TellsAll := by
  by_cases hlist : ∃ ws, v = .list ws
  · obtain ⟨ws, rfl⟩ := hlist
    obtain ⟨place, rfl, hall⟩ := list_of_tells hv
    exact fun _ => ⟨.refl m, rfl, .ok hall⟩
  · have hheld : domainHeld name h = do
        let _ ← Act.ofExcept (domainOf name (← Act.value h))
        return [] := by
      unfold domainHeld
      split
      · obtain ⟨ws, rfl, -⟩ := Memory.tells_list hv
        exact absurd ⟨ws, rfl⟩ hlist
      · rfl
    rw [hheld, ← bind_pure (Run.ofExcept (domainOf name v))]
    refine .of_eq (bind_value hv) (.ofExcept_bind fun items hitems => ?_)
    exact absurd ⟨items, domainOf_ok hitems⟩ hlist

/-! ## Filters -/

theorem elements_eq (hv : m.Tells h v) :
    ∃ hs, h.elements m = (pure hs : Deed (List Held)) m ∧ m.TellsAll hs v.elements := by
  by_cases hlist : ∃ place, h = .list place
  · obtain ⟨place, rfl⟩ := hlist
    obtain ⟨vs, rfl, hall⟩ := Memory.tells_list hv
    exact ⟨m.items place, rfl, hall⟩
  · have hheld : h.elements = pure [h] := by
      unfold Held.elements
      split
      · exact absurd ⟨_, rfl⟩ hlist
      · rfl
    have htold : v.elements = [v] := by
      unfold Value.elements
      split
      · obtain ⟨place, rfl, -⟩ := list_of_tells hv
        exact absurd ⟨place, rfl⟩ hlist
      · rfl
    rw [hheld, htold]
    exact ⟨[h], rfl, .cons hv .nil⟩

theorem getElem_tells (hall : m.TellsAll hs vs) (i : Nat) : Option.Rel m.Tells hs[i]? vs[i]? := by
  induction hall generalizing i with
  | nil => exact .none
  | cons hv _ ih =>
    cases i with
    | zero => exact .some hv
    | succ i => exact ih i

/-- An element is found by its number. -/
theorem atPosition_tells (hall : m.TellsAll hs vs) (position : Value) :
    EndsAs m.Tells (Held.atPosition hs position) (Value.atPosition vs position) := by
  have hnumbers : ∀ k : Nat, ((List.range vs.length).map fun i : Nat => Value.whole i)[k]? =
      if k < vs.length then some (.whole k) else none := by
    intro k
    rw [List.getElem?_map]
    split
    · rw [List.getElem?_range ‹_›]
      rfl
    · rw [List.getElem?_eq_none (by rw [List.length_range]; omega)]
      rfl
  unfold Held.atPosition Value.atPosition
  cases position with
  | number n =>
    dsimp only
    cases n.truncate with
    | error f => exact .error f
    | ok i =>
      rw [List.length_map, List.length_range, hall.length_eq]
      dsimp only [bind, Except.bind]
      by_cases hwhole : (!n.eqv (.whole i)) = true
      · rw [if_pos hwhole, if_pos hwhole]
        exact .ok (Memory.Holds.plain rfl)
      rw [if_neg hwhole, if_neg hwhole]
      generalize (if i < 0 then ↑vs.length + i else i - 1) = place
      by_cases hplace : place < 0
      · rw [if_pos hplace, if_pos hplace]
        exact .ok (Memory.Holds.plain rfl)
      rw [if_neg hplace, if_neg hplace, hnumbers]
      have hget := getElem_tells hall place.toNat
      by_cases hlt : place.toNat < vs.length
      · rw [if_pos hlt]
        exact .ok (get_or_null hget)
      · rw [if_neg hlt, List.getElem?_eq_none (Nat.le_of_not_lt hlt)]
        exact .ok (Memory.Holds.plain rfl)
  | _ => exact .ok (Memory.Holds.plain rfl)

theorem filter_tells (hall : m.TellsAll hs vs) (keeps : Value → Bool) :
    m.TellsAll (((hs.zip vs).filter fun p => keeps p.2).map (·.1)) (vs.filter keeps) := by
  have hpairs := tellsAll_of_pairs (m := m) ((hs.zip vs).filter fun p => keeps p.2) fun p hp =>
    (Memory.holdsAll_iff.1 hall).2 p (List.mem_filter.1 hp).1
  have hvalues : ((hs.zip vs).filter fun p => keeps p.2).map (·.2) = vs.filter keeps := by
    conv_rhs => rw [← List.map_snd_zip (Nat.le_of_eq hall.length_eq.symm), List.filter_map]
    rfl
  rwa [hvalues] at hpairs

/-- A predicate that answers with a test asks it of the element. -/
theorem asked_runs {w : Value} (hw : m.Offers ask test w) (hv : m.Tells h v) :
    RunsAs m ((test.match? ask h).getD (pure test)) (match w with
      | .probe p => p.match v
      | w => pure w) Memory.Tells := by
  cases hw with
  | told hw =>
    rw [match_none hw]
    split
    · cases hw with
      | plain hlistless => cases hlistless
    · exact .pure hw
  | test hp =>
    obtain ⟨answered, hmatch, hruns⟩ := match_runs hp hv
    rw [hmatch]
    exact hruns

theorem selectWhere_cons (told : Scope → Eval Value) (scope : Scope) (item : Value) (rest : List Value) :
    selectWhere told scope (item :: rest) = told (scope.extend item.itemLayer) >>= fun outcome =>
      (match outcome with
        | .probe p => p.match item
        | v => pure v) >>= fun holds => selectWhere told scope rest >>= fun others =>
          pure (if holds.isTrue then item :: others else others) := by
  conv_lhs => unfold selectWhere
  congr 1
  funext outcome
  cases outcome <;> rfl

theorem selectWhere_runs (hbody : BodyRuns m body told (Memory.Offers ask)) (hlayers : m.TellsLayers layers scope)
    (hall : m.TellsAll hs vs) :
    RunsAs m (selectHeldWhere ask body layers hs) (selectWhere told scope vs) Memory.TellsAll := by
  induction hs generalizing m vs with
  | nil =>
    cases hall
    exact .pure .nil
  | cons h rest ih =>
    cases hall with
    | @cons _ v _ vs hv hrest =>
      have hlayer := hlayers.extend (itemLayer_tells hv)
      rw [selectWhere_cons]
      refine (hbody m _ _ (.refl m) hlayer).bind fun m₁ g w hgrows hw => ?_
      refine (asked_runs hw (hv.grows hgrows)).bind fun m₂ g' u hgrows' hu => ?_
      have hafter := hgrows.trans hgrows'
      refine .of_eq (bind_outline g') ?_
      rw [hu.outline.2.2]
      refine (ih (hbody.grows hafter) (hlayers.grows hafter) (Memory.HoldsAll.grows hrest hafter)).bind
        fun m₃ others ws hgrows'' hothers => ?_
      split
      · exact .pure (.cons (hv.grows (hafter.trans hgrows'')) hothers)
      · exact .pure hothers

/-- What an expression is evaluated for: its value, a test that is asked at once, or tests in a list. -/
inductive Role where
  | data
  | test
  | tests
deriving DecidableEq

/-- What is given in a role. -/
def Role.Gives (ask : Held.Asking) : Role → Memory → Held → Value → Prop
  | .data => Memory.Tells
  | .test => Memory.Offers ask
  | .tests => Memory.OffersAny ask

/-- The role of a filter's condition with a tag. -/
def Role.ofTag : Option Tag → Role
  | some .number | some .boolean | some .string => .data
  | _ => .test

theorem selectWhere_list_runs (hbody : BodyRuns m body told (Memory.Offers ask))
    (hlayers : m.TellsLayers layers scope) (hall : m.TellsAll hs vs) :
    RunsAs m (do Act.alloc (← selectHeldWhere ask body layers hs))
      (do return .list (← selectWhere told scope vs)) Memory.Tells :=
  (selectWhere_runs hbody hlayers hall).bind fun _ _ _ _ hothers => alloc_runs hothers

/-- **A filter keeps what values tell**, if its condition runs as values tell. -/
theorem select_runs {tag : Option Tag} (hbody : BodyRuns m body told ((Role.ofTag tag).Gives ask))
    (hlayers : m.TellsLayers layers scope) (hv : m.Tells h v) :
    RunsAs m (selectHeld ask h tag body layers) (select v tag told scope) Memory.Tells := by
  obtain ⟨hs, helements, hall⟩ := elements_eq hv
  refine .of_eq ((bind_read helements).trans (bind_outline h)) ?_
  obtain ⟨hkind, -, -⟩ := hv.outline
  by_cases hnull : v = .null
  · subst hnull
    rw [Memory.held_of_listless hv rfl]
    exact nothing_runs
  have hkind' : v.kind ≠ .null := fun hkind => hnull (Value.null_of_kind hkind)
  rw [select_eq hkind']
  have hlist : (m.outline h).isList = v.isList := by
    unfold Value.isList
    rw [hkind]
  generalize m.outline h = shape at hkind hlist
  have hrun := hbody m layers scope (.refl m) hlayers
  split
  · exact absurd hkind.symm hkind'
  rcases tag with _ | (_ | _ | _ | _ | _)
  case some.number =>
    refine hrun.bind fun m' g w hgrows hw => ?_
    have hw : m'.Tells g w := hw
    exact .of_eq (bind_value hw) (.ofEnds (atPosition_tells (Memory.HoldsAll.grows hall hgrows) w))
  case some.boolean =>
    refine hrun.bind fun m' g w hgrows hw => ?_
    have hw : m'.Tells g w := hw
    refine .of_eq (bind_outline g) ?_
    rw [hw.outline.2.1, ← hlist]
    by_cases hnonzero : w.isNonzero = true
    · rw [if_pos hnonzero, if_pos hnonzero]
      exact alloc_runs (Memory.HoldsAll.grows hall hgrows)
    rw [if_neg hnonzero, if_neg hnonzero]
    split
    · exact alloc_runs .nil
    · exact nothing_runs
  case some.string =>
    refine hrun.bind fun m' g w hgrows hw => ?_
    have hw : m'.Tells g w := hw
    have hafter := Memory.HoldsAll.grows hall hgrows
    exact .of_eq ((bind_value hw).trans (bind_values hafter)) (alloc_runs (filter_tells hafter (·.eqv w)))
  all_goals exact selectWhere_list_runs hbody hlayers hall

end Names

end Criterion

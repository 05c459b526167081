import Criterion.Proofs.Ordering

/-!
# Layered scopes are flat maps

A scope is looked up layer by layer, and its names are listed by a walk of its own over the layers. A
flat map knows one value for each name and lists each name once. To extend a flat map is to override it.
The scopes of any program of constructions answer like the flat maps of the same program.

* `Flat`: a map without layers, with its names in the order of a listing.
* `Construction`, `Construction.yield?`: how scopes come about, each from earlier ones.
* `Scope.flat`: the flat map of a scope, whose layers override one another.
* `Scope.Refines`: the scope answers every question like the map.
* `refines_flat`: a scope whose layers have each key once answers like its flat map.
* `layers_refine_maps`: **all scopes of a program answer like the flat maps of the program, are equal when
  these are, and stay as they are when the program goes on.**
-/

namespace Criterion

/-! ## The keys of fields -/

namespace Fields

variable {fields : Fields} {key : String} {v : Value}

theorem isSome_get : (fields.get? key).isSome = true ↔ key ∈ fields.map (·.1) := by
  unfold get?
  rw [List.lookup_isSome_iff, List.mem_map]
  constructor
  · rintro ⟨p, hp, hkey⟩
    exact ⟨p, hp, (beq_iff_eq.1 hkey).symm⟩
  · rintro ⟨p, hp, rfl⟩
    exact ⟨p, hp, beq_self_eq_true p.1⟩

theorem notMem_keys_of_get (h : fields.get? key = none) : key ∉ fields.map (·.1) := by
  intro hmem
  have hsome : (fields.get? key).isSome = true := isSome_get.2 hmem
  rw [h] at hsome
  exact Bool.noConfusion hsome

/-- An assignment keeps the keys in their places and adds a new one at the end. -/
theorem keys_put (key : String) (v : Value) (fields : Fields) :
    (put key v fields).map (·.1) =
      if key ∈ fields.map (·.1) then fields.map (·.1) else fields.map (·.1) ++ [key] := by
  induction fields with
  | nil => rfl
  | cons p rest ih =>
    obtain ⟨k, w⟩ := p
    unfold put
    by_cases hk : k = key
    · simp [hk]
    · have hkey : key ≠ k := fun h => hk h.symm
      rw [if_neg hk, List.map_cons, ih]
      by_cases hmem : key ∈ rest.map (·.1)
      · simp [hmem]
      · simp [hmem, hkey]

theorem keys_put_nodup (h : (fields.map (·.1)).Nodup) : ((put key v fields).map (·.1)).Nodup := by
  rw [keys_put]
  by_cases hmem : key ∈ fields.map (·.1)
  · rw [if_pos hmem]
    exact h
  · rw [if_neg hmem]
    apply h.append (List.nodup_singleton key)
    intro k hk hlast
    have heq : k = key := List.mem_singleton.1 hlast
    exact hmem (heq ▸ hk)

/-- Assignments leave each key once, however often it is assigned. -/
theorem keys_ofPairs_nodup (pairs : Fields) : ((ofPairs pairs).map (·.1)).Nodup := by
  have hupdate : ∀ (pairs before : Fields), (before.map (·.1)).Nodup →
      ((update before pairs).map (·.1)).Nodup := by
    intro pairs
    induction pairs with
    | nil => exact fun before h => h
    | cons p pairs ih => exact fun before h => ih (put p.1 p.2 before) (keys_put_nodup h)
  exact hupdate pairs [] List.nodup_nil

/-- Keys that are left out are the only ones that are missed. -/
theorem get_filter (keep : String → Bool) (h : keep key = true) :
    get? (fields.filter (keep ·.1)) key = fields.get? key := by
  unfold get?
  induction fields with
  | nil => rfl
  | cons p rest ih =>
    obtain ⟨k, w⟩ := p
    by_cases hk : key = k
    · subst hk
      rw [List.filter_cons, if_pos h, List.lookup_cons_self, List.lookup_cons_self]
    · rw [List.filter_cons, List.lookup_cons, beq_false_of_ne hk]
      by_cases hkeep : keep k = true
      · rw [if_pos hkeep, List.lookup_cons, beq_false_of_ne hk]
        exact ih
      · rw [if_neg hkeep]
        exact ih

end Fields

/-! ## Flat maps -/

/-- A map without layers: what each name has, and the names that have something in the order in which
they are listed. -/
structure Flat where
  get? : String → Option Value
  keys : List String

namespace Flat

/-- The map of some fields. -/
def ofFields (own : Fields) : Flat := ⟨own.get?, own.map (·.1)⟩

/-- The map overridden by some fields. Their names are listed first, then the ones not yet seen. -/
def extend (m : Flat) (own : Fields) : Flat where
  get? name := (own.get? name).or (m.get? name)
  keys := own.map (·.1) ++ m.keys.filter (· ∉ own.map (·.1))

/-- Two maps are equal if every name has equal values in them, or no value in both. -/
def Equal (m n : Flat) : Prop :=
  ∀ name, Option.Rel (fun v w => v.eqv w = true) (m.get? name) (n.get? name)

/-- The names that a map lists are those that have a value in it, each once. -/
structure Lawful (m : Flat) : Prop where
  nodup : m.keys.Nodup
  mem_keys : ∀ name, name ∈ m.keys ↔ (m.get? name).isSome = true

variable {m : Flat} {own : Fields}

theorem Lawful.extend (hm : m.Lawful) (hown : (own.map (·.1)).Nodup) : (m.extend own).Lawful := by
  constructor
  · apply hown.append (hm.nodup.filter _)
    intro name hmem hold
    have hnew : name ∉ own.map (·.1) := of_decide_eq_true (List.mem_filter.1 hold).2
    exact hnew hmem
  · intro name
    have hsome : ((m.extend own).get? name).isSome = true ↔
        (own.get? name).isSome = true ∨ (m.get? name).isSome = true := by
      show ((own.get? name).or (m.get? name)).isSome = true ↔ _
      rw [Option.isSome_or, Bool.or_eq_true]
    rw [hsome, Fields.isSome_get, ← hm.mem_keys]
    show name ∈ own.map (·.1) ++ m.keys.filter (· ∉ own.map (·.1)) ↔ _
    rw [List.mem_append, List.mem_filter, decide_eq_true_eq]
    by_cases hmem : name ∈ own.map (·.1)
    · simp [hmem]
    · simp [hmem]

end Flat

/-! ## The flat map of a scope -/

/-- The map of some layers, each of which overrides those after it. -/
def flatten : List Fields → Flat
  | [] => ⟨fun _ => none, []⟩
  | layer :: below => (flatten below).extend layer

namespace Scope

variable {s t : Scope} {layers : List Fields}

def flat (s : Scope) : Flat := flatten s.layers

theorem flat_ofFields (own : Fields) : (ofFields own).flat = Flat.ofFields own := by
  have hget : (fun name => (own.get? name).or none) = own.get? :=
    funext fun name => Option.or_none
  have hkeys : own.map (·.1) ++ [] = own.map (·.1) := List.append_nil _
  show Flat.mk (fun name => (own.get? name).or none) (own.map (·.1) ++ []) = Flat.ofFields own
  rw [hget, hkeys, Flat.ofFields]

theorem flat_extend (s : Scope) (own : Fields) : (s.extend own).flat = s.flat.extend own := rfl

theorem get_flatten (name : String) (layers : List Fields) :
    (flatten layers).get? name = layers.findSome? (·.get? name) := by
  induction layers with
  | nil => rfl
  | cons layer below ih =>
    show (layer.get? name).or ((flatten below).get? name) = _
    rw [ih, List.findSome?_cons]
    cases layer.get? name <;> rfl

theorem get_flat (s : Scope) (name : String) : s.flat.get? name = s.get? name :=
  get_flatten name s.layers

/-- Layers that have each of their keys once. -/
def Keyed (s : Scope) : Prop := ∀ layer ∈ s.layers, (layer.map (·.1)).Nodup

theorem Keyed.lawful (h : s.Keyed) : s.flat.Lawful := by
  have hlayers : ∀ layers : List Fields, (∀ layer ∈ layers, (layer.map (·.1)).Nodup) →
      (flatten layers).Lawful := by
    intro layers
    induction layers with
    | nil => exact fun _ => ⟨List.nodup_nil, fun name => by simp [flatten]⟩
    | cons layer below ih =>
      intro h
      obtain ⟨hlayer, hbelow⟩ := List.forall_mem_cons.1 h
      exact (ih hbelow).extend hlayer
  exact hlayers s.layers h

/-! ## What a walk over the layers lists -/

/-- The walk lists the keys of the flat map but for those that are hidden. -/
theorem keys_go (hidden : List String) (layers : List Fields) :
    (visible.go hidden layers).map (·.1) = (flatten layers).keys.filter (· ∉ hidden) := by
  induction layers generalizing hidden with
  | nil => rfl
  | cons layer below ih =>
    have hlayer : (layer.filter (!hidden.contains ·.1)).map (·.1) =
        (layer.map (·.1)).filter (· ∉ hidden) := by
      rw [List.filter_map]
      congr 1
      apply List.filter_congr
      intro p _
      simp
    have hbelow : ((flatten below).keys.filter (· ∉ layer.map (·.1))).filter (· ∉ hidden) =
        (flatten below).keys.filter (· ∉ layer.map (·.1) ++ hidden) := by
      rw [List.filter_filter]
      apply List.filter_congr
      intro name _
      by_cases hmem : name ∈ layer.map (·.1)
      · simp [hmem]
      · simp [hmem]
    show (layer.filter (!hidden.contains ·.1) ++ visible.go (layer.map (·.1) ++ hidden) below).map _ =
      (layer.map (·.1) ++ (flatten below).keys.filter (· ∉ layer.map (·.1))).filter (· ∉ hidden)
    rw [List.map_append, List.filter_append, hlayer, hbelow, ih]

/-- The walk gives a name that is not hidden the value that it has in the flat map. -/
theorem get_go {name : String} (hidden : List String) (layers : List Fields) (h : name ∉ hidden) :
    Fields.get? (visible.go hidden layers) name = (flatten layers).get? name := by
  induction layers generalizing hidden with
  | nil => rfl
  | cons layer below ih =>
    have hkeep : (!hidden.contains name) = true := by simp [h]
    have hlayer : Fields.get? (layer.filter (!hidden.contains ·.1)) name = layer.get? name :=
      Fields.get_filter (!hidden.contains ·) hkeep
    have hwalk : Fields.get? (visible.go hidden (layer :: below)) name =
        (layer.get? name).or
          (Fields.get? (visible.go (layer.map (·.1) ++ hidden) below) name) := by
      rw [← hlayer]
      exact List.lookup_append
    rw [hwalk]
    show _ = (layer.get? name).or ((flatten below).get? name)
    cases hown : layer.get? name with
    | some v => rfl
    | none =>
      -- a name without a value in this layer is not among those it hides
      have hhidden : name ∉ layer.map (·.1) ++ hidden := by
        rw [List.mem_append, not_or]
        exact ⟨Fields.notMem_keys_of_get hown, h⟩
      exact ih (layer.map (·.1) ++ hidden) hhidden

theorem keys_eq_flat (s : Scope) : s.keys = s.flat.keys := by
  have hwalk : s.keys = s.flat.keys.filter (· ∉ ([] : List String)) := keys_go [] s.layers
  rw [hwalk]
  apply List.filter_eq_self.2
  intro name _
  exact decide_eq_true List.not_mem_nil

theorem get_visible (s : Scope) (name : String) : Fields.get? s.visible name = s.flat.get? name :=
  get_go [] s.layers List.not_mem_nil

/-! ## A scope answers like its flat map -/

/-- A scope answers every question about names like a flat map. -/
structure Refines (s : Scope) (m : Flat) : Prop where
  has : ∀ name, s.has name = (m.get? name).isSome
  item : ∀ name, s.item name = (m.get? name).elim (.error (.absentKey name)) .ok
  getOr : ∀ name default, s.getOr name default = (m.get? name).getD default
  keys : s.keys = m.keys
  length : s.length = m.keys.length
  /-- The names that are listed are those that have a value, each once. -/
  lawful : m.Lawful

theorem refines_flat (h : s.Keyed) : s.Refines s.flat where
  has name := by rw [has, get_flat]
  item name := by
    rw [item, get_flat]
    cases s.get? name <;> rfl
  getOr name default := by rw [getOr, get_flat]
  keys := keys_eq_flat s
  length := by rw [length, keys_eq_flat]
  lawful := h.lawful

/-- Fields with each key once are matched as a whole if they have the same keys with equal values. -/
theorem eqv_context_iff_rel {es fs : Fields} (hes : (es.map (·.1)).Nodup)
    (hfs : (fs.map (·.1)).Nodup) :
    (Value.context es).eqv (.context fs) = true ↔
      ∀ name, Option.Rel (fun v w => v.eqv w = true) (es.get? name) (fs.get? name) := by
  rw [Value.eqv_context_iff hfs]
  constructor
  · rintro ⟨hlength, hmatched⟩ name
    cases he : es.get? name with
    | some v =>
      obtain ⟨f, hf, hkey, heqv⟩ := hmatched (name, v) (mem_of_get he)
      have hmem : (name, f.2) ∈ fs := (show f.1 = name from hkey) ▸ hf
      have hget : fs.get? name = some f.2 := Fields.get_of_mem hfs hmem
      rw [hget]
      exact .some heqv
    | none =>
      have hnot : name ∉ fs.map (·.1) := fun hmem =>
        Fields.notMem_keys_of_get he ((hmatched.keys_perm hes hlength).mem_iff.2 hmem)
      have hget : fs.get? name = none := by
        rw [← Option.not_isSome_iff_eq_none, Fields.isSome_get]
        exact hnot
      rw [hget]
      exact .none
  · intro hrel
    have hkeys : ∀ name, name ∈ es.map (·.1) ↔ name ∈ fs.map (·.1) := by
      intro name
      rw [← Fields.isSome_get, ← Fields.isSome_get]
      have hname := hrel name
      generalize es.get? name = v at hname ⊢
      generalize fs.get? name = w at hname ⊢
      cases hname <;> exact Iff.rfl
    have hperm : (es.map (·.1)).Perm (fs.map (·.1)) := (List.perm_ext_iff_of_nodup hes hfs).2 hkeys
    refine ⟨by simpa using hperm.length_eq, ?_⟩
    intro e he
    have hget : es.get? e.1 = some e.2 := Fields.get_of_mem hes he
    have hvalue := hrel e.1
    rw [hget] at hvalue
    cases hf : fs.get? e.1 with
    | none =>
      rw [hf] at hvalue
      cases hvalue
    | some w =>
      rw [hf] at hvalue
      cases hvalue with
      | some heqv => exact ⟨(e.1, w), mem_of_get hf, rfl, heqv⟩

theorem eqv_iff_equal (hs : s.Keyed) (ht : t.Keyed) : s.eqv t = true ↔ s.flat.Equal t.flat := by
  have hkeys : ∀ u : Scope, u.Keyed → (u.visible.map (·.1)).Nodup := by
    intro u hu
    show u.keys.Nodup
    rw [keys_eq_flat]
    exact hu.lawful.nodup
  unfold eqv Flat.Equal
  rw [eqv_context_iff_rel (hkeys s hs) (hkeys t ht)]
  simp only [get_visible]

end Scope

/-! ## Programs of constructions -/

/-- How a scope comes about: on its own, or over the earlier one with a number. -/
inductive Construction where
  | new (assignments : Fields)
  | extend (base : Nat) (assignments : Fields)

section Programs

variable {σ τ : Type} (new : Fields → σ) (grow : σ → Fields → σ)

/-- What a construction yields after earlier ones, if there is what it extends. -/
def Construction.yield? (earlier : List σ) : Construction → Option σ
  | .new assignments => some (new (.ofPairs assignments))
  | .extend base assignments => earlier[base]?.map (grow · (.ofPairs assignments))

/-- All that a program of constructions yields, after what there is. -/
def yields? (earlier : List σ) : List Construction → Option (List σ)
  | [] => some earlier
  | op :: rest => (op.yield? new grow earlier).bind fun s => yields? (earlier ++ [s]) rest

variable {new grow}

/-- What a construction yields has a property that extensions keep. -/
theorem Construction.yield_induct {P : σ → Prop} (hnew : ∀ as, P (new (.ofPairs as)))
    (hgrow : ∀ s as, P s → P (grow s (.ofPairs as))) {earlier : List σ} (hearlier : ∀ s ∈ earlier, P s)
    {op : Construction} {s : σ} (h : op.yield? new grow earlier = some s) : P s := by
  cases op with
  | new assignments =>
    cases h
    exact hnew assignments
  | extend base assignments =>
    obtain ⟨s₀, hbase, rfl⟩ := Option.map_eq_some_iff.1 h
    exact hgrow s₀ assignments (hearlier s₀ (List.mem_of_getElem? hbase))

theorem yields_induct {P : σ → Prop} (hnew : ∀ as, P (new (.ofPairs as)))
    (hgrow : ∀ s as, P s → P (grow s (.ofPairs as))) :
    ∀ (ops : List Construction) (earlier made : List σ), (∀ s ∈ earlier, P s) →
      yields? new grow earlier ops = some made → ∀ s ∈ made, P s
  | [], earlier, made, hearlier, h => by
    cases h
    exact hearlier
  | op :: rest, earlier, made, hearlier, h => by
    obtain ⟨s, hop, hrest⟩ := Option.bind_eq_some_iff.1 h
    have hs : P s := op.yield_induct hnew hgrow hearlier hop
    have hall : ∀ u ∈ earlier ++ [s], P u := by
      intro u hu
      rcases List.mem_append.1 hu with hu | hu
      · exact hearlier u hu
      · exact List.mem_singleton.1 hu ▸ hs
    exact yields_induct hnew hgrow rest (earlier ++ [s]) made hall hrest

/-- One construction on two kinds of maps, where one stands for the other. -/
theorem Construction.yield_map {new' : Fields → τ} {grow' : τ → Fields → τ} {f : σ → τ}
    (hnew : ∀ own, f (new own) = new' own) (hgrow : ∀ s own, f (grow s own) = grow' (f s) own)
    (earlier : List σ) (op : Construction) :
    op.yield? new' grow' (earlier.map f) = (op.yield? new grow earlier).map f := by
  cases op with
  | new assignments =>
    show some (new' _) = some (f (new _))
    rw [hnew]
  | extend base assignments =>
    show (earlier.map f)[base]?.map _ = (earlier[base]?.map _).map f
    rw [List.getElem?_map, Option.map_map, Option.map_map]
    congr 1
    funext s
    exact (hgrow s _).symm

theorem yields_map {new' : Fields → τ} {grow' : τ → Fields → τ} {f : σ → τ}
    (hnew : ∀ own, f (new own) = new' own) (hgrow : ∀ s own, f (grow s own) = grow' (f s) own)
    (earlier : List σ) (ops : List Construction) :
    yields? new' grow' (earlier.map f) ops = (yields? new grow earlier ops).map (·.map f) := by
  induction ops generalizing earlier with
  | nil => rfl
  | cons op rest ih =>
    unfold yields?
    rw [op.yield_map hnew hgrow]
    cases op.yield? new grow earlier with
    | none => rfl
    | some s =>
      have hlast : earlier.map f ++ [f s] = (earlier ++ [s]).map f := by
        rw [List.map_append, List.map_singleton]
      show yields? new' grow' (earlier.map f ++ [f s]) rest =
        (yields? new grow (earlier ++ [s]) rest).map (·.map f)
      rw [hlast]
      exact ih (earlier ++ [s])

/-- What there is stays in its place. -/
theorem prefix_of_yields {earlier made : List σ} {ops : List Construction}
    (h : yields? new grow earlier ops = some made) : earlier <+: made := by
  induction ops generalizing earlier with
  | nil =>
    cases h
    exact List.prefix_rfl
  | cons op rest ih =>
    obtain ⟨s, -, hrest⟩ := Option.bind_eq_some_iff.1 h
    exact (List.prefix_append earlier [s]).trans (ih hrest)

theorem yields_append (earlier : List σ) (ops more : List Construction) :
    yields? new grow earlier (ops ++ more) =
      (yields? new grow earlier ops).bind fun made => yields? new grow made more := by
  induction ops generalizing earlier with
  | nil => rfl
  | cons op rest ih =>
    show ((op.yield? new grow earlier).bind fun s => yields? new grow (earlier ++ [s]) (rest ++ more)) =
      ((op.yield? new grow earlier).bind fun s => yields? new grow (earlier ++ [s]) rest).bind _
    cases op.yield? new grow earlier with
    | none => rfl
    | some s => exact ih (earlier ++ [s])

end Programs

/-- The scopes of a program, in the order in which they come about. -/
def scopesOf (ops : List Construction) : Option (List Scope) :=
  yields? Scope.ofFields Scope.extend [] ops

/-- The flat maps of a program. -/
def mapsOf (ops : List Construction) : Option (List Flat) :=
  yields? Flat.ofFields Flat.extend [] ops

theorem keyed_of_scopesOf {ops : List Construction} {scopes : List Scope}
    (h : scopesOf ops = some scopes) : ∀ s ∈ scopes, s.Keyed := by
  refine yields_induct (P := Scope.Keyed) ?_ ?_ ops [] scopes (List.forall_mem_nil _) h
  · intro assignments layer hlayer
    rw [List.mem_singleton.1 hlayer]
    exact Fields.keys_ofPairs_nodup assignments
  · intro s assignments hs layer hlayer
    rcases List.mem_cons.1 hlayer with rfl | hbelow
    · exact Fields.keys_ofPairs_nodup assignments
    · exact hs layer hbelow

/-- **All scopes of a program answer like the flat maps of the program and are equal when these are; and
each answers the same when the program has gone on.** -/
theorem layers_refine_maps {ops : List Construction} {scopes : List Scope}
    (h : scopesOf ops = some scopes) :
    mapsOf ops = some (scopes.map Scope.flat) ∧
    (∀ s ∈ scopes, s.Refines s.flat) ∧
    (∀ s ∈ scopes, ∀ t ∈ scopes, s.eqv t = true ↔ s.flat.Equal t.flat) ∧
    ∀ more later, scopesOf (ops ++ more) = some later → scopes <+: later := by
  have hkeyed : ∀ s ∈ scopes, s.Keyed := keyed_of_scopesOf h
  refine ⟨?_, fun s hs => Scope.refines_flat (hkeyed s hs),
    fun s hs t ht => Scope.eqv_iff_equal (hkeyed s hs) (hkeyed t ht), ?_⟩
  · have hmaps : mapsOf ops = (scopesOf ops).map (·.map Scope.flat) :=
      yields_map Scope.flat_ofFields Scope.flat_extend [] ops
    rw [hmaps, h, Option.map_some]
  · intro more later hlater
    unfold scopesOf at h hlater
    rw [yields_append, h] at hlater
    exact prefix_of_yields hlater

/-- A program in which a layer assigns a name of the scope below it anew, between a new name and one that
is assigned twice. -/
def shadowing : List Construction :=
  [.new [("a", .whole 1), ("b", .null)],
    .extend 0 [("c", .whole 2), ("a", .null), ("c", .whole 3)]]

theorem shadowing_refines : ∃ below above, scopesOf shadowing = some [below, above] ∧
    mapsOf shadowing = some [below.flat, above.flat] ∧
    below.keys = ["a", "b"] ∧ above.keys = ["c", "a", "b"] ∧ above.Refines above.flat := by
  obtain ⟨hmaps, hrefines, -, -⟩ := layers_refine_maps (show scopesOf shadowing = some _ from rfl)
  exact ⟨_, _, rfl, hmaps, rfl, rfl, hrefines _ (.tail _ (.head _))⟩

end Criterion

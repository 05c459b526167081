import Criterion.Proofs.Naming
import Criterion.Proofs.Silence

/-!
# What a dotted name reads

A name with dots is looked up as a whole first, in all layers of a scope. Only if no layer has the whole
name is its first part looked up, in the newest layer that has it, and the other parts are read as fields.
So a new layer hides the fields of an older value unless an older layer has the whole name.

* `dotted`, `Value.walk`: a name made of parts, and the value that its later parts lead to.
* `segments_dotted`: taking such a name apart gives the parts back.
* `resolve_dotted`: what a name reads is told by the whole name and by the first part.
* `loopScopes_reads`: so the body of a loop reads fields of the element that the loop has come to.
* `dotted_name_reads_innermost`: **a dotted name reads the innermost value of its first part, where no
  scope around it has the whole name.**
* `outer_whole_name_wins`: where one has, that comes first.
-/

namespace Criterion

/-! ## Fields after assignments -/

namespace Fields

variable {fields : Fields} {key name : String} {v : Value} {pairs : List (String × Value)}

theorem get_put (key name : String) (v : Value) (fields : Fields) :
    (fields.put key v).get? name = if name = key then some v else fields.get? name := by
  induction fields with
  | nil =>
    unfold put get?
    by_cases h : name = key
    · rw [if_pos h, h, List.lookup_cons_self]
    · rw [if_neg h, List.lookup_cons, beq_false_of_ne h]
  | cons p rest ih =>
    obtain ⟨k, w⟩ := p
    unfold put
    by_cases hk : k = key
    · rw [if_pos hk]
      subst hk
      unfold get?
      by_cases h : name = k
      · rw [if_pos h, h, List.lookup_cons_self]
      · rw [if_neg h, List.lookup_cons, List.lookup_cons, beq_false_of_ne h]
    · rw [if_neg hk]
      unfold get? at ih ⊢
      by_cases h : name = k
      · have hne : ¬ name = key := fun hkey => hk (h.symm.trans hkey)
        rw [if_neg hne, h, List.lookup_cons_self, List.lookup_cons_self]
      · rw [List.lookup_cons, List.lookup_cons, beq_false_of_ne h]
        exact ih

/-- Assignments to other keys leave a key alone. -/
theorem get_update_of_notMem (fields : Fields) (h : name ∉ pairs.map (·.1)) :
    (fields.update pairs).get? name = fields.get? name := by
  induction pairs generalizing fields with
  | nil => rfl
  | cons p pairs ih =>
    rw [List.map_cons, List.mem_cons, not_or] at h
    have hput : (fields.put p.1 p.2).get? name = fields.get? name := by
      rw [get_put, if_neg h.1]
    exact (ih (fields.put p.1 p.2) h.2).trans hput

/-- A key that is assigned once has the value that it is assigned. -/
theorem get_update_of_mem (fields : Fields) (hmem : (name, v) ∈ pairs)
    (hnodup : (pairs.map (·.1)).Nodup) : (fields.update pairs).get? name = some v := by
  induction pairs generalizing fields with
  | nil => exact absurd hmem List.not_mem_nil
  | cons p pairs ih =>
    rw [List.map_cons, List.nodup_cons] at hnodup
    rcases List.mem_cons.1 hmem with rfl | hmem
    · have hrest : (update (put name v fields) pairs).get? name = (put name v fields).get? name :=
        get_update_of_notMem _ hnodup.1
      have hput : (put name v fields).get? name = some v := by rw [get_put, if_pos rfl]
      exact hrest.trans hput
    · exact ih (fields.put p.1 p.2) hmem hnodup.2

/-- In fields with each key once, a pair is found by its key. -/
theorem get_of_mem (hnodup : (fields.map (·.1)).Nodup) (hmem : (name, v) ∈ fields) :
    fields.get? name = some v := by
  induction fields with
  | nil => exact absurd hmem List.not_mem_nil
  | cons p rest ih =>
    obtain ⟨k, w⟩ := p
    rw [List.map_cons, List.nodup_cons] at hnodup
    unfold get? at ih ⊢
    rcases List.mem_cons.1 hmem with heq | hrest
    · obtain ⟨rfl, rfl⟩ := Prod.mk.inj heq
      exact List.lookup_cons_self
    · have hkey : name ∈ rest.map (·.1) := List.mem_map_of_mem hrest
      have hne : name ≠ k := fun hk => hnodup.1 (hk ▸ hkey)
      rw [List.lookup_cons, beq_false_of_ne hne]
      exact ih hnodup.2 hrest

theorem get_ofPairs_eq_none (h : name ∉ pairs.map (·.1)) : (ofPairs pairs).get? name = none :=
  get_update_of_notMem [] h

/-- Every key that is assigned has a value. -/
theorem get_ofPairs_isSome (h : name ∈ pairs.map (·.1)) :
    ∃ v, (ofPairs pairs).get? name = some v := by
  have hupdate : ∀ (pairs : List (String × Value)) (fields : Fields),
      (∃ v, fields.get? name = some v) ∨ name ∈ pairs.map (·.1) →
        ∃ v, (fields.update pairs).get? name = some v := by
    intro pairs
    induction pairs with
    | nil => exact fun fields h => h.resolve_right List.not_mem_nil
    | cons p pairs ih =>
      intro fields h
      refine ih (fields.put p.1 p.2) ?_
      rw [get_put]
      by_cases hp : name = p.1
      · exact .inl ⟨p.2, if_pos hp⟩
      · rw [if_neg hp]
        refine h.imp_right fun hmem => ?_
        rw [List.map_cons, List.mem_cons] at hmem
        exact hmem.resolve_left hp
  exact hupdate pairs [] (.inr h)

end Fields

/-! ## Names made of parts -/

/-- The name that is made of a first part and the parts behind it. -/
def dotted (head : String) (rest : List String) : String := ".".intercalate (head :: rest)

/-- The value that some fields lead to, one after the other. -/
def Value.walk (v : Value) (parts : List String) : Value := parts.foldl Value.fieldOrFields v

/-- Parts of a dotted name: they have no dots themselves and are not empty. -/
def AreParts (parts : List String) : Prop := ∀ s ∈ parts, s ≠ "" ∧ '.' ∉ s.toList

section Parts

variable {head : String} {rest : List String}

theorem toList_dotted (head part : String) (rest : List String) :
    (dotted head (part :: rest)).toList = head.toList ++ '.' :: (dotted part rest).toList :=
  toList_intercalate_dot head part rest

theorem split_dotted (h : AreParts (head :: rest)) :
    Scope.segments.split (dotted head rest).toList = (head :: rest).map String.toList := by
  induction rest generalizing head with
  | nil =>
    have hname : dotted head [] = head := by simp [dotted]
    rw [hname, split_undotted (h head List.mem_cons_self).2]
    rfl
  | cons part rest ih =>
    obtain ⟨hhead, hrest⟩ := List.forall_mem_cons.1 h
    rw [toList_dotted, split_dot hhead.2, ih hrest]
    rfl

/-- **Taking a dotted name apart gives its parts back.** -/
theorem segments_dotted (h : AreParts (head :: rest)) :
    Scope.segments (dotted head rest) = (head, rest) := by
  unfold Scope.segments
  rw [split_dotted h]
  simp [Function.comp_def]

/-- A name with a dot is none without. -/
theorem dotted_ne {name : String} (hrest : rest ≠ []) (hname : '.' ∉ name.toList) :
    dotted head rest ≠ name := by
  rintro rfl
  obtain ⟨part, rest, rfl⟩ := List.exists_cons_of_ne_nil hrest
  rw [toList_dotted] at hname
  exact hname (by simp)

end Parts

/-! ## What a scope has under a name -/

section Scopes

variable {s : Scope} {head : String} {rest : List String} {v : Value}

/-- **What a dotted name reads**: what the scope has under the whole name, and otherwise the fields of what
it has under the first part. -/
theorem resolve_dotted (h : AreParts (head :: rest)) (hrest : rest ≠ []) (hv : s.get? head = some v) :
    s.resolve (dotted head rest) = (s.get? (dotted head rest)).getD (v.walk rest) := by
  have hempty : rest ≠ [""] := by
    rintro rfl
    exact (h "" (by simp)).1 rfl
  unfold Scope.resolve
  cases hwhole : s.get? (dotted head rest) with
  | some w => rfl
  | none =>
    rw [segments_dotted h]
    obtain ⟨part, others, rfl⟩ := List.exists_cons_of_ne_nil hrest
    simp only [if_neg hempty, hv, Option.getD_none]
    rfl

/-- Layers that do not have a name do not change what is found under it. -/
theorem get_under {name : String} {inner : List Fields} (h : ∀ l ∈ inner, l.get? name = none)
    (layer : Fields) (c : Scope) :
    (⟨inner ++ layer :: c.layers⟩ : Scope).get? name = (layer.get? name).or (c.get? name) := by
  induction inner with
  | nil => exact Scope.get_extend c layer name
  | cons l inner ih =>
    obtain ⟨hl, hinner⟩ := List.forall_mem_cons.1 h
    have hextend : (⟨l :: (inner ++ layer :: c.layers)⟩ : Scope).get? name =
        (l.get? name).or ((⟨inner ++ layer :: c.layers⟩ : Scope).get? name) :=
      Scope.get_extend ⟨inner ++ layer :: c.layers⟩ l name
    rw [List.cons_append, hextend, hl, Option.none_or, ih hinner]

/-- A name that the registry does not have is read in the scope. -/
theorem eval_name {registry : Fields} {name : String} (h : registry.get? name = none) (s : Scope) :
    (Expr.name name).eval registry s = return s.resolve name := by
  unfold Expr.eval resolveName
  rw [h]

end Scopes

/-! ## Loops -/

section Loops

variable {scope t : Scope} {head : String} {rest : List String}

/-- **In the scopes of a loop a dotted name reads fields of an element**, namely of the one that its first
part has come to, unless the scope around the loop has the whole name. -/
theorem loopScopes_reads (h : AreParts (head :: rest)) (hrest : rest ≠ [])
    {domains : List (String × List Value)} (hhead : head ∈ domains.map (·.1))
    (hnames : ∀ d ∈ domains, '.' ∉ d.1.toList) (hwhole : scope.get? (dotted head rest) = none)
    (ht : t ∈ loopScopes scope domains) :
    t.get? (dotted head rest) = none ∧ ∃ d ∈ domains, d.1 = head ∧ ∃ v ∈ d.2, t.get? head = some v ∧
      t.resolve (dotted head rest) = v.walk rest := by
  obtain ⟨pairs, rfl, hkeys, hpairs⟩ := pairs_of_loopScopes ht
  obtain ⟨v, hv⟩ : ∃ v, (Fields.ofPairs pairs).get? head = some v :=
    Fields.get_ofPairs_isSome (by rw [hkeys]; exact hhead)
  have hget : (scope.extend (.ofPairs pairs)).get? head = some v := by
    rw [Scope.get_extend, hv, Option.some_or]
  -- no name of the loop has a dot
  have hlayer : (Fields.ofPairs pairs).get? (dotted head rest) = none := by
    refine Fields.get_ofPairs_eq_none ?_
    rw [hkeys]
    intro hmem
    obtain ⟨d, hd, hname⟩ := List.mem_map.1 hmem
    exact dotted_ne hrest (hnames d hd) hname.symm
  have hnone : (scope.extend (.ofPairs pairs)).get? (dotted head rest) = none := by
    rw [Scope.get_extend, hlayer, hwhole, Option.none_or]
  -- the value of the first part is one that the loop goes over
  obtain ⟨d, hd, hname, hvalue⟩ := hpairs (head, v) (mem_ofPairs (mem_of_get hv))
  refine ⟨hnone, d, hd, hname.symm, v, hvalue, hget, ?_⟩
  rw [resolve_dotted h hrest hget, hnone, Option.getD_none]

end Loops

/-! ## Filters -/

section Filters

variable {scope : Scope} {field : String} {fields : Fields}

/-- An element has each key once, and none of its keys is in the way of `item` and a field of it. -/
def Value.LeavesItem (item : Value) (field : String) : Prop :=
  ∀ fields : Fields, item = .context fields → (fields.map (·.1)).Nodup ∧
    "item" ∉ fields.map (·.1) ∧ dotted "item" [field] ∉ fields.map (·.1)

/-- The fields of a context as the layer of a filter names them, and the context itself. -/
def itemPairs (fields : Fields) : List (String × Value) :=
  ("item", .context fields) :: fields.map fun p => (dotted "item" [p.1], p.2)

theorem itemLayer_context (fields : Fields) :
    (Value.context fields).itemLayer = Fields.update (.ofPairs (itemPairs fields)) fields := by
  have hname : ∀ k, "item." ++ k = dotted "item" [k] := by
    intro k
    rw [← String.toList_inj, toList_dotted]
    simp [dotted]
  unfold Value.itemLayer itemPairs
  simp only [hname]

theorem itemLayer_other {item : Value} (h : ∀ fields, item ≠ .context fields) :
    item.itemLayer = [("item", item)] := by
  cases item
  case context fields => exact absurd rfl (h fields)
  all_goals rfl

theorem dotted_injective (head : String) : Function.Injective fun part => dotted head [part] := by
  intro a b h
  have hlists := congrArg String.toList h
  simp only [toList_dotted] at hlists
  have hparts : (dotted a []).toList = (dotted b []).toList :=
    (List.cons.inj (List.append_cancel_left hlists)).2
  have hnames := String.toList_inj.1 hparts
  simpa [dotted] using hnames

theorem itemPairs_keys (fields : Fields) :
    (itemPairs fields).map (·.1) = "item" :: (fields.map (·.1)).map fun k => dotted "item" [k] := by
  simp [itemPairs, Function.comp_def]

theorem dotted_item_ne (part : String) : dotted "item" [part] ≠ "item" :=
  dotted_ne (by simp) (by decide)

/-- Keys that differ do so behind the name of the element, and none of them is that name. -/
theorem itemPairs_nodup (h : (fields.map (·.1)).Nodup) : ((itemPairs fields).map (·.1)).Nodup := by
  rw [itemPairs_keys, List.nodup_cons]
  refine ⟨fun hmem => ?_, h.map (dotted_injective "item")⟩
  obtain ⟨k, -, hk⟩ := List.mem_map.1 hmem
  exact dotted_item_ne k hk

/-- The layer of a filter has the element. -/
theorem itemLayer_get_item {item : Value} (h : item.LeavesItem field) :
    item.itemLayer.get? "item" = some item := by
  by_cases hcontext : ∃ fields, item = .context fields
  · obtain ⟨fields, rfl⟩ := hcontext
    obtain ⟨hnodup, hitem, -⟩ := h fields rfl
    rw [itemLayer_context, Fields.get_update_of_notMem _ hitem]
    exact Fields.get_update_of_mem [] List.mem_cons_self (itemPairs_nodup hnodup)
  · rw [itemLayer_other fun fields hfields => hcontext ⟨fields, hfields⟩]
    exact List.lookup_cons_self

/-- What the layer of a filter has behind the name of the element is the field of the element. -/
theorem itemLayer_get_field {item v : Value} (h : item.LeavesItem field)
    (hv : item.itemLayer.get? (dotted "item" [field]) = some v) : v = item.fieldOrFields field := by
  by_cases hcontext : ∃ fields, item = .context fields
  · obtain ⟨fields, rfl⟩ := hcontext
    obtain ⟨hnodup, -, hname⟩ := h fields rfl
    rw [itemLayer_context, Fields.get_update_of_notMem _ hname] at hv
    have hmem : (dotted "item" [field], v) ∈ itemPairs fields := mem_ofPairs (mem_of_get hv)
    rcases List.mem_cons.1 hmem with heq | hmem
    · exact absurd (Prod.mk.inj heq).1 (dotted_item_ne field)
    · obtain ⟨p, hp, heq⟩ := List.mem_map.1 hmem
      obtain ⟨hkey, rfl⟩ := Prod.mk.inj heq
      obtain rfl := dotted_injective "item" hkey
      have hget : Fields.get? fields p.1 = some p.2 := Fields.get_of_mem hnodup hp
      change p.2 = .ofOption (Fields.get? fields p.1)
      rw [hget]
      rfl
  · rw [itemLayer_other fun fields hfields => hcontext ⟨fields, hfields⟩] at hv
    have hmem := mem_of_get hv
    rw [List.mem_singleton] at hmem
    exact absurd (Prod.mk.inj hmem).1 (dotted_item_ne field)

/-- **In the condition of a filter `item` and a field read the field of the element**, unless the scope
around the filter has the whole name. -/
theorem itemLayer_reads (h : AreParts ["item", field]) {item : Value} (hitem : item.LeavesItem field)
    (hwhole : scope.get? (dotted "item" [field]) = none) :
    (scope.extend item.itemLayer).resolve (dotted "item" [field]) = item.fieldOrFields field := by
  have hhead : (scope.extend item.itemLayer).get? "item" = some item := by
    rw [Scope.get_extend, itemLayer_get_item hitem, Option.some_or]
  rw [resolve_dotted h (by simp) hhead, Scope.get_extend, hwhole, Option.or_none]
  cases hlayer : item.itemLayer.get? (dotted "item" [field]) with
  | none => rfl
  | some v => exact itemLayer_get_field hitem hlayer

end Filters

/-! ## The innermost value -/

/-- **A dotted name reads the innermost value of its first part.** Over any scope `c`, a layer that has the
first part decides what the name reads: what the layer has under the whole name, or what `c` has under
it, and otherwise the fields of the value of the first part; layers above that have neither change
nothing. So where no scope around has the whole name, the body of a loop and the condition of a
quantifier read the fields of the element that the first part has come to, and the condition of a filter
reads those of the element. -/
theorem dotted_name_reads_innermost (head : String) (rest : List String)
    (h : AreParts (head :: rest)) (hrest : rest ≠ []) :
    (∀ (c : Scope) (layer : Fields) (v : Value) (inner : List Fields), layer.get? head = some v →
      (∀ l ∈ inner, l.get? head = none ∧ l.get? (dotted head rest) = none) →
        (⟨inner ++ layer :: c.layers⟩ : Scope).resolve (dotted head rest) =
          ((layer.get? (dotted head rest)).or (c.get? (dotted head rest))).getD (v.walk rest)) ∧
    ∀ (registry : Fields) (scope : Scope), registry.get? (dotted head rest) = none →
      scope.get? (dotted head rest) = none →
        (∀ domains : List (String × List Value), head ∈ domains.map (·.1) →
          (∀ d ∈ domains, '.' ∉ d.1.toList) → ∀ t ∈ loopScopes scope domains,
            ∃ d ∈ domains, d.1 = head ∧ ∃ v ∈ d.2, t.get? head = some v ∧
              (Expr.name (dotted head rest)).eval registry t = pure (v.walk rest) ∧
              (head ≠ partialKey → ∀ results, (Expr.name (dotted head rest)).eval registry
                (t.extend [(partialKey, .list results)]) = pure (v.walk rest))) ∧
        ∀ (field : String) (item : Value), head = "item" → rest = [field] → item.LeavesItem field →
          (Expr.name (dotted head rest)).eval registry (scope.extend item.itemLayer) =
            pure (item.fieldOrFields field) := by
  refine ⟨fun c layer v inner hv hinner => ?_, fun registry scope hregistry hscope => ⟨?_, ?_⟩⟩
  · have hhead : (⟨inner ++ layer :: c.layers⟩ : Scope).get? head = some v := by
      rw [get_under (fun l hl => (hinner l hl).1), hv, Option.some_or]
    rw [resolve_dotted h hrest hhead, get_under fun l hl => (hinner l hl).2]
  · intro domains hhead hnames t ht
    obtain ⟨hwhole, d, hd, hname, v, hv, hget, hread⟩ :=
      loopScopes_reads h hrest hhead hnames hscope ht
    refine ⟨d, hd, hname, v, hv, hget, ?_, fun hpartial results => ?_⟩
    · rw [eval_name hregistry, hread]
    · -- the name of the results is another one, and has no dot
      have hdotted : dotted head rest ≠ partialKey := dotted_ne hrest (by decide)
      have hget' := (Scope.get_extend_other hpartial t (.list results)).trans hget
      rw [eval_name hregistry, resolve_dotted h hrest hget', Scope.get_extend_other hdotted, hwhole,
        Option.getD_none]
  · rintro field item rfl rfl hitem
    rw [eval_name hregistry, itemLayer_reads h hitem hscope]

theorem dotted_name_reads_inner_layer :
    ((Scope.ofFields [("x", .null)]).extend [("x", .context [("a", .whole 2)])]).resolve "x.a" =
      .whole 2 := by
  have hparts : AreParts ["x", "a"] := by
    intro s hs
    rcases List.mem_pair.1 hs with rfl | rfl <;> exact ⟨by decide, by decide⟩
  exact (dotted_name_reads_innermost "x" ["a"] hparts (by decide)).1 (Scope.ofFields [("x", .null)])
    [("x", .context [("a", .whole 2)])] _ [] rfl (fun l hl => absurd hl List.not_mem_nil)

/-- A whole name in an outer layer goes before the fields of an inner value. -/
theorem outer_whole_name_wins :
    Fields.get? [("x", .context [("a", .whole 2)])] "x.a" = none ∧
      (Value.context [("a", .whole 2)]).walk ["a"] = .whole 2 ∧
      ((Scope.ofFields []).extend [("x", .context [("a", .whole 2)])]).resolve "x.a" = .whole 2 ∧
      ((Scope.ofFields [("x.a", .whole 1)]).extend [("x", .context [("a", .whole 2)])]).resolve "x.a" =
        .whole 1 ∧
      (Expr.loop [("x", .list [.context [("a", .number (.whole 2))]])] (.name "x.a")).eval
          standardRegistry (.ofFields [("x.a", .whole 1)]) = pure (.list [.whole 1]) :=
  ⟨by rfl, by rfl, by rfl, by rfl, by rfl⟩

end Criterion

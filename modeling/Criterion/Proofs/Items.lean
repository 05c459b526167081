import Criterion.Proofs.Selection
import Criterion.Proofs.Shadowing

/-!
# The element in the condition of a filter

For each element a filter lays the element, as `item`, over the scope around it, and the fields of a context both
as `item.f` and as `f`. So the name `item` is the element, unless the element has a field of that name, and
`item.f` is its field `f` as long as it has one. Where it has none, the name is looked up further out, and an
element of a filter around may have a field to offer.

* `Value.own`: the field that a context has itself.
* `itemLayer_get_element`, `itemLayer_get_dotted`: what the layer has as `item` and as `item.f`.
* `filterScopes`, `filterScopes_get`: what filters inside each other have as `item.f`.
* `filter_congr`: a predicate is asked in the scopes of the elements and in no other.
* `item_reads`: **what `item` and `item.f` read while a predicate is asked for an element.**
* `outer_field_read`: where the second is not the element's field.
-/

namespace Criterion

/-! ## Fields after many assignments -/

namespace Fields

variable {fields : Fields} {pairs : List (String × Value)} {name : String}

theorem get_eq_none (h : name ∉ pairs.map (·.1)) : Fields.get? pairs name = none := by
  rw [get?, List.lookup_eq_none_iff]
  intro p hp
  exact bne_iff_ne.2 fun hname => h (hname ▸ List.mem_map_of_mem hp)

/-- Assignments to different keys go before the fields that were there. -/
theorem get_update_of_nodup (hnodup : (pairs.map (·.1)).Nodup) (fields : Fields) (name : String) :
    (fields.update pairs).get? name = (Fields.get? pairs name).or (fields.get? name) := by
  by_cases h : name ∈ pairs.map (·.1)
  · obtain ⟨p, hp, rfl⟩ := List.mem_map.1 h
    rw [get_update_of_mem fields hp hnodup, get_of_mem hnodup hp, Option.some_or]
  · rw [get_update_of_notMem fields h, get_eq_none h, Option.none_or]

theorem get_ofPairs (hnodup : (pairs.map (·.1)).Nodup) (name : String) :
    (ofPairs pairs).get? name = Fields.get? pairs name := by
  rw [ofPairs, get_update_of_nodup hnodup]
  exact Option.or_none

/-- Keys that stay different when they are renamed are found under their new names. -/
theorem get_renamed {rename : String → String} (h : Function.Injective rename) (fields : Fields)
    (name : String) :
    Fields.get? (fields.map fun p => (rename p.1, p.2)) (rename name) = fields.get? name := by
  induction fields with
  | nil => rfl
  | cons p rest ih =>
    unfold get? at ih ⊢
    rw [List.map_cons, List.lookup_cons, List.lookup_cons, ih]
    by_cases hp : name = p.1
    · rw [hp, beq_self_eq_true, beq_self_eq_true]
    · rw [beq_false_of_ne hp, beq_false_of_ne fun hrename => hp (h hrename)]

end Fields

/-! ## What the layer of an element has -/

namespace Value

/-- The field that a context has itself. -/
def own (v : Value) (key : String) : Option Value :=
  match v with
  | .context fields => Fields.get? fields key
  | _ => none

/-- A context has each key once. -/
def KeysOnce (v : Value) : Prop := ∀ fields : Fields, v = .context fields → (fields.map (·.1)).Nodup

/-- What the layer of an element has as `item.f`: a field of this name, or the field `f`. -/
def planted (v : Value) (f : String) : Option Value := (v.own (dotted "item" [f])).or (v.own f)

variable {e : Value} {f : String}

theorem own_other (h : ∀ fields, e ≠ .context fields) (key : String) : e.own key = none := by
  cases e
  case context fields => exact absurd rfl (h fields)
  all_goals rfl

theorem itemPairs_get_dotted (fields : Fields) (f : String) :
    Fields.get? (itemPairs fields) (dotted "item" [f]) = fields.get? f := by
  rw [itemPairs, Fields.get?, List.lookup_cons, beq_false_of_ne (dotted_item_ne f)]
  exact Fields.get_renamed (dotted_injective "item") fields f

/-- The layer has the element as `item`, unless a field of the element has this name. -/
theorem itemLayer_get_element (h : e.KeysOnce) :
    e.itemLayer.get? "item" = some ((e.own "item").getD e) := by
  by_cases hcontext : ∃ fields, e = .context fields
  · obtain ⟨fields, rfl⟩ := hcontext
    have hkeys := h fields rfl
    have helement : Fields.get? (itemPairs fields) "item" = some (.context fields) :=
      List.lookup_cons_self
    rw [itemLayer_context, Fields.get_update_of_nodup hkeys, Fields.get_ofPairs (itemPairs_nodup hkeys),
      helement, own]
    cases Fields.get? fields "item" <;> rfl
  · have hother : ∀ fields, e ≠ .context fields := fun fields hfields => hcontext ⟨fields, hfields⟩
    rw [itemLayer_other hother, own_other hother]
    exact List.lookup_cons_self

theorem itemLayer_get_dotted (h : e.KeysOnce) (f : String) :
    e.itemLayer.get? (dotted "item" [f]) = e.planted f := by
  by_cases hcontext : ∃ fields, e = .context fields
  · obtain ⟨fields, rfl⟩ := hcontext
    have hkeys := h fields rfl
    rw [itemLayer_context, Fields.get_update_of_nodup hkeys, Fields.get_ofPairs (itemPairs_nodup hkeys),
      itemPairs_get_dotted, planted, own, own]
  · have hother : ∀ fields, e ≠ .context fields := fun fields hfields => hcontext ⟨fields, hfields⟩
    rw [itemLayer_other hother, planted, own_other hother, own_other hother]
    rw [Fields.get?, List.lookup_cons, beq_false_of_ne (dotted_item_ne f)]
    rfl

end Value

/-! ## Filters inside each other -/

section

variable {registry : Fields} {scope : Scope} {e : Value} {f : String}

/-- The scope in which the innermost of some filters inside each other asks its predicate: the elements that they
have come to, the innermost first, over the scope around all of them. -/
def filterScopes (scope : Scope) : List Value → Scope
  | [] => scope
  | e :: outer => (filterScopes scope outer).extend e.itemLayer

/-- The innermost element with something to offer as `item.f` gives it, and otherwise the scope around does. -/
theorem filterScopes_get {elements : List Value} (h : ∀ e ∈ elements, e.KeysOnce) (f : String) :
    (filterScopes scope elements).get? (dotted "item" [f]) =
      (elements.findSome? (·.planted f)).or (scope.get? (dotted "item" [f])) := by
  induction elements with
  | nil => rw [filterScopes, List.findSome?_nil, Option.none_or]
  | cons e outer ih =>
    obtain ⟨he, houter⟩ := List.forall_mem_cons.1 h
    rw [filterScopes, Scope.get_extend, Value.itemLayer_get_dotted he, ih houter,
      List.findSome?_cons]
    cases e.planted f <;> rfl

/-- What `item` and `item.f` read in the scope of an element. -/
theorem resolve_item (h : e.KeysOnce) (scope : Scope) :
    (scope.extend e.itemLayer).resolve "item" = (e.own "item").getD e := by
  rw [Scope.resolve, Scope.get_extend, Value.itemLayer_get_element h, Option.some_or]

theorem resolve_item_dotted (h : e.KeysOnce) (hf : AreParts ["item", f]) (scope : Scope) :
    (scope.extend e.itemLayer).resolve (dotted "item" [f]) =
      ((e.planted f).or (scope.get? (dotted "item" [f]))).getD
        (((e.own "item").getD e).fieldOrFields f) := by
  have helement : (scope.extend e.itemLayer).get? "item" = some ((e.own "item").getD e) := by
    rw [Scope.get_extend, Value.itemLayer_get_element h, Option.some_or]
  rw [resolve_dotted hf (by simp) helement, Scope.get_extend, Value.itemLayer_get_dotted h]
  rfl

/-- A filter asks its predicate in the scopes of the elements only. -/
theorem selectWhere_congr {p q : Scope → Eval Value} {items : List Value}
    (h : ∀ e ∈ items, p (scope.extend e.itemLayer) = q (scope.extend e.itemLayer)) :
    selectWhere p scope items = selectWhere q scope items := by
  induction items with
  | nil => rfl
  | cons e rest ih =>
    obtain ⟨he, hrest⟩ := List.forall_mem_cons.1 h
    rw [selectWhere, selectWhere, he, ih hrest]

/-- Predicates that agree in the scopes of the elements keep the same, with the same calls. -/
theorem filter_congr {xs p q : Expr} (hp : Tag.Predicate p.tag) (hq : Tag.Predicate q.tag)
    (h : ∀ v, (xs.eval registry scope).outcome = .ok v → ∀ e ∈ v.elements,
      p.eval registry (scope.extend e.itemLayer) = q.eval registry (scope.extend e.itemLayer)) :
    (Expr.filter xs p).eval registry scope = (Expr.filter xs q).eval registry scope := by
  rw [Expr.eval, Expr.eval]
  refine Run.bind_congr fun v hv => ?_
  by_cases hnull : v = .null
  · subst hnull
    rfl
  · rw [select_predicate hp hnull, select_predicate hq hnull, selectWhere_congr (h v hv)]

/-- A field that an element has is what its layer offers, if no field is named after `item`. -/
theorem planted_own (hown : e.own (dotted "item" [f]) = none) : e.planted f = e.own f := by
  rw [Value.planted, hown, Option.none_or]

theorem fieldOrFields_own {v : Value} (h : e.own f = some v) : e.fieldOrFields f = v := by
  cases e with
  | context fields =>
    change Value.ofOption (Fields.get? fields f) = v
    rw [show Fields.get? fields f = some v from h]
    rfl
  | _ => cases h

/-! ## What the names read -/

/-- **What `item` and `item.f` read in the condition of a filter.** The scope around may be any, and the filter may
be inside of others. Its predicate is asked in the scopes of the elements and in no other. There `item` is the field
`item` of the element, and the element itself if there is none. And `item.f` is what the first element from inside
out has as a field `item.f` or `f`, or what the scope around all filters has under this name; only if nothing has
any, it is the field `f` of what `item` is. So if no field of the element is named after `item`, then `item` is the
element, and `item.f` is its field `f`, null if there is none, provided that the element has this field or nothing
around has it. -/
theorem item_reads (hitem : registry.get? "item" = none)
    (hname : registry.get? (dotted "item" [f]) = none) (hf : f ≠ "" ∧ '.' ∉ f.toList)
    (base : Scope) (outer : List Value) (houter : ∀ e ∈ outer, e.KeysOnce) :
    (∀ xs p q, Tag.Predicate p.tag → Tag.Predicate q.tag →
      (∀ v, (xs.eval registry (filterScopes base outer)).outcome = .ok v → ∀ e ∈ v.elements,
        p.eval registry (filterScopes base (e :: outer)) =
          q.eval registry (filterScopes base (e :: outer))) →
      (Expr.filter xs p).eval registry (filterScopes base outer) =
        (Expr.filter xs q).eval registry (filterScopes base outer)) ∧
    ∀ e, e.KeysOnce →
      (Expr.name "item").eval registry (filterScopes base (e :: outer)) =
        pure ((e.own "item").getD e) ∧
      (Expr.name (dotted "item" [f])).eval registry (filterScopes base (e :: outer)) =
        pure ((((e :: outer).findSome? (·.planted f)).or (base.get? (dotted "item" [f]))).getD
          (((e.own "item").getD e).fieldOrFields f)) ∧
      (e.own "item" = none → e.own (dotted "item" [f]) = none →
        (Expr.name "item").eval registry (filterScopes base (e :: outer)) = pure e ∧
        (e.own f ≠ none ∨ (outer.findSome? (·.planted f) = none ∧
            base.get? (dotted "item" [f]) = none) →
          (Expr.name (dotted "item" [f])).eval registry (filterScopes base (e :: outer)) =
            pure (e.fieldOrFields f))) := by
  have hparts : AreParts ["item", f] := by
    intro part hpart
    obtain rfl | rfl := List.mem_pair.1 hpart
    · exact ⟨by decide, by decide⟩
    · exact hf
  refine ⟨fun xs p q hp hq h => filter_congr hp hq h, fun e he => ?_⟩
  have helement : (Expr.name "item").eval registry (filterScopes base (e :: outer)) =
      pure ((e.own "item").getD e) := by
    rw [eval_name hitem, filterScopes, resolve_item he]
  have hfield : (Expr.name (dotted "item" [f])).eval registry (filterScopes base (e :: outer)) =
      pure ((((e :: outer).findSome? (·.planted f)).or (base.get? (dotted "item" [f]))).getD
        (((e.own "item").getD e).fieldOrFields f)) := by
    rw [eval_name hname, filterScopes, resolve_item_dotted he hparts, filterScopes_get houter,
      List.findSome?_cons]
    cases e.planted f <;> rfl
  refine ⟨helement, hfield, fun hown hdotted => ⟨?_, fun hfound => ?_⟩⟩
  · rw [helement, hown, Option.getD_none]
  · rw [hfield, hown, Option.getD_none, List.findSome?_cons, planted_own hdotted]
    cases hfieldOf : e.own f with
    | some v =>
      rw [Option.some_or, Option.getD_some, fieldOrFields_own hfieldOf]
    | none =>
      obtain ⟨hnone, hbase⟩ := hfound.resolve_left (not_not.2 hfieldOf)
      dsimp only
      rw [hnone, hbase, Option.or_none, Option.getD_none]

/-- `[{a: 1}]` filtered by a predicate: `item.a` is `1`. -/
theorem item_reads_own_field :
    (Expr.name "item.a").eval standardRegistry
      (filterScopes (.ofFields [("a", .whole 7)]) [.context [("a", .whole 1)]]) = pure (.whole 1) := by
  have hkeys : (Value.context [("a", .whole 1)]).KeysOnce := by
    rintro fields ⟨⟩
    decide
  have hitem : standardRegistry.get? "item" = none := by decide
  have hname : standardRegistry.get? (dotted "item" ["a"]) = none := by decide
  have hreads := (item_reads hitem hname ⟨by decide, by decide⟩ (.ofFields [("a", .whole 7)]) []
    (by simp)).2 _ hkeys
  exact (hreads.2.2 rfl rfl).2 (.inl nofun)

/-- In `[{item: 5}][item = 5]` the name is the field, and not the element. -/
example : (Expr.filter (.list [.context [("item", .number (.whole 5))]])
      (.relation .equal (.name "item") (.number (.whole 5)))).eval standardRegistry (.ofFields []) =
    pure (.list [.context [("item", .whole 5)]]) := by rfl

/-- In `[{a: 1}][[{b: 2}][item.a = 1] = []]` the inner element has no field `a`, and `item.a` is that of the outer
one, so that the inner filter keeps its element and the outer one does not. -/
theorem outer_field_read :
    (Value.context [("b", .whole 2)]).fieldOrFields "a" = .null ∧
    (Expr.name "item.a").eval standardRegistry (filterScopes (.ofFields [])
      [.context [("b", .whole 2)], .context [("a", .whole 1)]]) = pure (.whole 1) ∧
    (Expr.filter (.list [.context [("a", .number (.whole 1))]])
      (.relation .equal (.filter (.list [.context [("b", .number (.whole 2))]])
        (.relation .equal (.name "item.a") (.number (.whole 1)))) (.list []))).eval standardRegistry
          (.ofFields []) = pure (.list []) :=
  ⟨by rfl, by rfl, by rfl⟩

end

end Criterion

import Criterion.Proofs.Paths
import Criterion.Proofs.Quantifiers
import Criterion.Proofs.Truth

/-!
# The searches of a list

Whether a value is in a list can be asked in many ways: by a function, by a membership, by a quantifier, by a test
of the value, by the positions of the value, and by a filter. All of them go by the equality of values.

* `Value.isPlain`: data, without functions and tests.
* `Expr.alike`, `isReadAs`: what a source is read as, to be computed.
* `member_searches`, `some_searches`, `tests_search`, `filter_searches`: what each way finds.
* `positions_eq_findIdxs`: the positions of a value.
* `searches_agree`: **all ways to search a list of data agree.**
-/

namespace Criterion

/-! ## Plain values -/

namespace Value

mutual

/-- Whether a value is data in any depth: no function, no test, and no fraction that is not a number. -/
def isPlain : Value → Bool
  | .null | .boolean _ | .text _ | .date _ | .time _ | .moment _ | .duration _ | .zone _ => true
  | .number n => !n.isNaN
  | .list items => arePlain items
  | .context fields => havePlain fields
  | .function _ | .method .. | .probe _ | .procedure => false

def arePlain : List Value → Bool
  | [] => true
  | v :: rest => isPlain v && arePlain rest

def havePlain : List (String × Value) → Bool
  | [] => true
  | (_, v) :: rest => isPlain v && havePlain rest

end

end Value

/-! ## What a source is read as -/

namespace Expr

mutual

/-- Whether two expressions are the same, as far as they are made of names, numbers, lists, calls, arithmetic,
comparisons, memberships, quantifiers and filters. -/
def alike : Expr → Expr → Bool
  | .name m, .name n => m == n
  | .registered m, .registered n => m == n
  | .number m, .number n => m == n
  | .list es, .list fs => alikeItems es fs
  | .unary o a, .unary p b => o == p && alike a b
  | .arithmetic o a b, .arithmetic p c d => o == p && alike a c && alike b d
  | .call s f es, .call t g fs => s == t && alike f g && alikeItems es fs
  | .relation o a b, .relation p c d => o == p && alike a c && alike b d
  | .member a b, .member c d => alike a c && alike b d
  | .filter a b, .filter c d => alike a c && alike b d
  | .quantified q bs a, .quantified r cs b => q == r && alikeEntries bs cs && alike a b
  | _, _ => false

def alikeItems : List Expr → List Expr → Bool
  | [], [] => true
  | e :: es, f :: fs => alike e f && alikeItems es fs
  | _, _ => false

def alikeEntries : List (String × Expr) → List (String × Expr) → Bool
  | [], [] => true
  | (m, e) :: es, (n, f) :: fs => m == n && alike e f && alikeEntries es fs
  | _, _ => false

end

mutual

theorem eq_of_alike : ∀ e f : Expr, e.alike f = true → e = f
  | .name m, .name n, h => congrArg Expr.name (beq_iff_eq.1 h)
  | .registered m, .registered n, h => congrArg Expr.registered (beq_iff_eq.1 h)
  | .number m, .number n, h => congrArg Expr.number (beq_iff_eq.1 h)
  | .list es, .list fs, h => congrArg Expr.list (eq_of_alikeItems es fs h)
  | .unary o a, .unary p b, h => by
    simp only [alike, Bool.and_eq_true, beq_iff_eq] at h
    rw [h.1, eq_of_alike a b h.2]
  | .arithmetic o a b, .arithmetic p c d, h => by
    simp only [alike, Bool.and_eq_true, beq_iff_eq] at h
    rw [h.1.1, eq_of_alike a c h.1.2, eq_of_alike b d h.2]
  | .call s f es, .call t g fs, h => by
    simp only [alike, Bool.and_eq_true, beq_iff_eq] at h
    rw [h.1.1, eq_of_alike f g h.1.2, eq_of_alikeItems es fs h.2]
  | .relation o a b, .relation p c d, h => by
    simp only [alike, Bool.and_eq_true, beq_iff_eq] at h
    rw [h.1.1, eq_of_alike a c h.1.2, eq_of_alike b d h.2]
  | .member a b, .member c d, h => by
    simp only [alike, Bool.and_eq_true] at h
    rw [eq_of_alike a c h.1, eq_of_alike b d h.2]
  | .filter a b, .filter c d, h => by
    simp only [alike, Bool.and_eq_true] at h
    rw [eq_of_alike a c h.1, eq_of_alike b d h.2]
  | .quantified q bs a, .quantified r cs b, h => by
    simp only [alike, Bool.and_eq_true, beq_iff_eq] at h
    rw [h.1.1, eq_of_alikeEntries bs cs h.1.2, eq_of_alike a b h.2]

theorem eq_of_alikeItems : ∀ es fs : List Expr, alikeItems es fs = true → es = fs
  | [], [], _ => rfl
  | e :: es, f :: fs, h => by
    simp only [alikeItems, Bool.and_eq_true] at h
    rw [eq_of_alike e f h.1, eq_of_alikeItems es fs h.2]

theorem eq_of_alikeEntries : ∀ es fs : List (String × Expr), alikeEntries es fs = true → es = fs
  | [], [], _ => rfl
  | (m, e) :: es, (n, f) :: fs, h => by
    simp only [alikeEntries, Bool.and_eq_true, beq_iff_eq] at h
    rw [h.1.1, eq_of_alike e f h.1.2, eq_of_alikeEntries es fs h.2]

end

end Expr

/-- Whether two artifacts are the same expression or the same tests. -/
def Artifact.alike : Artifact → Artifact → Bool
  | .expr e, .expr f => e.alike f
  | .tests ts, .tests us => ts.negated == us.negated && Expr.alikeItems ts.tests us.tests
  | _, _ => false

theorem Artifact.eq_of_alike : ∀ a b : Artifact, a.alike b = true → a = b
  | .expr e, .expr f, h => congrArg Artifact.expr (Expr.eq_of_alike e f h)
  | .tests ⟨m, ts⟩, .tests ⟨n, us⟩, h => by
    simp only [alike, Bool.and_eq_true, beq_iff_eq] at h
    rw [h.1, Expr.eq_of_alikeItems ts us h.2]

/-- Whether a source is read as an expression or as tests. -/
def isReadAs (unary : Bool) (source : String) (a : Artifact) : Bool :=
  (parse unary source).toOption.any fun t => (t.build source).outcome.toOption.any fun built => built.any (·.alike a)

theorem read_of_isReadAs {unary : Bool} {source : String} {a : Artifact} (h : isReadAs unary source a = true) :
    ∃ t, parse unary source = .ok t ∧ (t.build source).outcome = .ok (some a) := by
  obtain ⟨t, ht, hbuild⟩ := Run.ok_of_any h
  obtain ⟨built, hbuilt, halike⟩ := Run.ok_of_any hbuild
  obtain ⟨b, rfl, hb⟩ := (Option.any_eq_true _ _).1 halike
  rw [Artifact.eq_of_alike b a hb] at hbuilt
  exact ⟨t, ht, hbuilt⟩

/-! ## The searches -/

section Searches

variable {registry : Fields} {scope : Scope} {items : List Value} {v w : Value} {xs a b : Expr} {name : String}

/-- A name that is not registered has the value that the scope has for it. -/
theorem eval_bound (hregistry : Unregistered registry name) (h : scope.get? name = some v) :
    (Expr.name name).eval registry scope = pure v := by
  rw [eval_unregistered hregistry]
  unfold Scope.resolve
  rw [h]

/-- Without reports a comparison for equality tells whether its operands are equal. -/
theorem relation_equal (hreports : scope.reports = false) (ha : a.eval registry scope = pure w)
    (hb : b.eval registry scope = pure v) :
    (Expr.relation .equal a b).eval registry scope = pure (.boolean (w.eqv v)) := by
  rw [Expr.eval, ha, hb, hreports]
  simp [answer_quiet, Value.compare?, Value.ofBool?]

theorem passesAny_plain (h : ∀ w ∈ items, w.isPlain = true) (v : Value) :
    v.passesAny items = pure (v.isAmong items) := by
  induction items with
  | nil => rfl
  | cons w rest ih =>
    obtain ⟨hw, hrest⟩ := List.forall_mem_cons.1 h
    -- only a probe would answer by itself
    have hpasses : v.passes w = pure (w.eqv v) := by
      cases w with
      | probe p => cases hw
      | _ => rfl
    rw [Value.passesAny, hpasses, pure_bind, ih hrest]
    cases hequal : w.eqv v <;> simp [Value.isAmong, hequal]

/-- **A membership looks for an equal element**, if no element is a test. -/
theorem member_searches (hreports : scope.reports = false) (ha : a.eval registry scope = pure v)
    (hxs : xs.eval registry scope = pure (.list items)) (hitems : ∀ w ∈ items, w.isPlain = true) :
    (Expr.member a xs).eval registry scope = pure (.boolean (v.isAmong items)) := by
  have hall : (Value.list items).elements = items := rfl
  rw [Expr.eval, ha, hxs, hreports, pure_bind, pure_bind, hall, passesAny_plain hitems]
  simp [answer_quiet, Value.ofBool?]

/-- In a layer of one name, this name is compared with a value for equality. -/
theorem relation_in_layer (hreports : scope.reports = false) (hkey : name ≠ Scope.reportKey)
    (hregistry : Unregistered registry name) (hb : b.eval registry (scope.extend [(name, w)]) = pure v) :
    (Expr.relation .equal (.name name) b).eval registry (scope.extend [(name, w)]) =
      pure (.boolean (w.eqv v)) := by
  have hsilent : (scope.extend [(name, w)]).reports = false := by
    rw [← hreports]
    unfold Scope.reports Scope.get
    rw [Scope.get_extend_other hkey.symm]
  exact relation_equal hsilent (eval_bound hregistry (Scope.get_extend_self scope name w)) hb

/-- **A quantifier looks for an equal element.** -/
theorem some_searches (hreports : scope.reports = false) (hkey : name ≠ Scope.reportKey)
    (hregistry : Unregistered registry name) (hxs : (xs.eval registry scope).outcome = .ok (.list items))
    (hb : ∀ w ∈ items, b.eval registry (scope.extend [(name, w)]) = pure v) :
    ((Expr.quantified .some [(name, xs)] (.relation .equal (.name name) b)).eval registry scope).outcome =
      .ok (.boolean (v.isAmong items)) := by
  have hlists : GiveLists registry scope [(name, xs)] [(name, items)] := .cons ⟨rfl, hxs⟩ .nil
  have hdomains : (Expr.evalDomains registry [(name, xs)] scope).outcome = .ok [(name, items)] := by
    rw [evalDomains_lists hlists]
  have hname : ∀ w, (scope.extend (.ofPairs [(name, w)])).get name = w := fun w =>
    congrArg Value.ofOption (Scope.get_extend_self scope name w)
  have hround : ∀ s ∈ loopScopes scope [(name, items)],
      ((Expr.relation .equal (.name name) b).eval registry s).outcome = .ok (.boolean ((s.get name).eqv v)) := by
    intro s hs
    rw [loopScopes_singleton] at hs
    obtain ⟨w, hw, rfl⟩ := List.mem_map.1 hs
    rw [hname]
    exact congrArg Run.outcome (relation_in_layer hreports hkey hregistry (hb w hw))
  have hverdicts : (loopScopes scope [(name, items)]).map (fun s => (Value.boolean ((s.get name).eqv v)).isTrue) =
      items.map (·.eqv v) := by
    rw [loopScopes_singleton, List.map_map]
    exact List.map_congr_left fun w _ => congrArg (·.eqv v) (hname w)
  rw [quantified_outcome .some hdomains hround, hverdicts, Quantifier.holds, List.any_map]
  rfl

/-- **A filter keeps the equal elements**, if none is a context. -/
theorem filter_searches (hreports : scope.reports = false) (hregistry : Unregistered registry "item")
    (hxs : (xs.eval registry scope).outcome = .ok (.list items)) (hcontext : ∀ w ∈ items, w.kind ≠ .context)
    (hb : ∀ w ∈ items, b.eval registry (scope.extend [("item", w)]) = pure v) :
    ((Expr.filter xs (.relation .equal (.name "item") b)).eval registry scope).outcome =
      .ok (.list (items.filter (·.eqv v))) := by
  have hanswers : Answers ((Expr.relation .equal (.name "item") b).eval registry) scope items
      fun w => .boolean (w.eqv v) := by
    intro w hw
    -- the fields of a context would hide names around the filter
    have hlayer : w.itemLayer = [("item", w)] := by
      cases w with
      | context fields => exact absurd rfl (hcontext _ hw)
      | _ => rfl
    rw [hlayer, relation_in_layer hreports (by decide) hregistry (hb w hw)]
    exact ⟨rfl, nofun⟩
  have htag : Tag.Predicate (Expr.relation .equal (.name "item") b).tag := predicate_none
  exact filter_predicate hxs htag hanswers

/-- **A list as a test looks for an equal element.** -/
theorem tests_search (hxs : xs.eval registry scope = pure (.list items)) :
    (⟨false, [.list [xs]]⟩ : UnaryTests).eval registry scope v = pure (.boolean (v.isAmong items)) := by
  rw [UnaryTests.eval_list, Expr.evalItems, Expr.evalItems, hxs]
  rfl

/-- A builtin is known by its name everywhere. -/
theorem eval_builtin (b : Builtin) (scope : Scope) :
    (Expr.name b.name).eval standardRegistry scope = pure (.function (.builtin b)) := by
  have hget : standardRegistry.get? b.name = some (.function (.builtin b)) := by cases b <;> rfl
  exact eval_registered hget (by simp) scope

/-- A call whose arguments have values answers as the function does. -/
theorem call_outcome {source : String} {arguments : List Expr} {vs : List Value}
    (hf : a.eval registry scope = pure v) (hcallable : v.isCallable = true)
    (harguments : (Expr.evalItems registry arguments scope).outcome = .ok vs) :
    ((Expr.call source a arguments).eval registry scope).outcome = (v.call vs).outcome := by
  rw [Expr.eval, hf, pure_bind, hcallable, if_neg (by decide), Run.bind_outcome, harguments]
  rfl

/-- The positions of a value are the places of the elements that equal it. -/
theorem positions_eq_findIdxs (v : Value) (next : ℕ) : Library.positions v next items =
    items.findIdxs (·.eqv v) next := by
  induction items generalizing next with
  | nil => rfl
  | cons w rest ih =>
    rw [Library.positions, List.findIdxs_cons, ih]

end Searches

/-- The positions of a value are those of the elements that equal it. -/
theorem mem_positions (v : Value) (items : List Value) (i : ℕ) :
    i ∈ Library.positions v 1 items ↔ 1 ≤ i ∧ ∃ w, items[i - 1]? = some w ∧ w.eqv v = true := by
  rw [positions_eq_findIdxs, List.mem_findIdxs_iff_getElem_sub_pos]
  refine and_congr_right fun _ => ⟨fun ⟨hlt, hequal⟩ => ⟨_, List.getElem?_eq_getElem hlt, hequal⟩, ?_⟩
  rintro ⟨w, hw, hequal⟩
  obtain ⟨hlt, rfl⟩ := List.getElem?_eq_some_iff.1 hw
  exact ⟨hlt, hequal⟩

/-- A value has positions exactly if it is found. -/
theorem isAmong_iff_positions (v : Value) (items : List Value) :
    v.isAmong items = true ↔ Library.positions v 1 items ≠ [] := by
  rw [positions_eq_findIdxs, Ne, List.findIdxs_eq_nil_iff, Value.isAmong, List.any_eq_true]
  simp

/-- There are as many positions as equal elements. -/
theorem length_positions (v : Value) (items : List Value) :
    (Library.positions v 1 items).length = (items.filter (·.eqv v)).length := by
  rw [positions_eq_findIdxs, List.length_findIdxs, List.countP_eq_length_filter]

/-! ## One search in many ways -/

/-- A source that is read as one expression answers what the expression does. -/
theorem evaluate_isReadAs {registry bindings : Fields} {source : String} {e : Expr} {v : Value}
    (hread : isReadAs false source (.expr (.list [e])) = true)
    (he : (e.eval registry (.ofFields bindings)).outcome = .ok v) :
    (evaluate ⟨registry, 0⟩ source bindings).outcome = .ok v := by
  rw [evaluate_of_lone (read_of_isReadAs hread)]
  exact he

/-- A source that is read as tests answers what the tests do. -/
theorem unaryTest_isReadAs {registry bindings : Fields} {source : String} {ts : UnaryTests} {v : Value}
    (hread : isReadAs true source (.tests ts) = true)
    (hts : ts.eval registry (.ofFields bindings) ((Scope.ofFields bindings).get Scope.inputKey) = pure v) :
    (unaryTest ⟨registry, 0⟩ source bindings false).outcome = .ok v := by
  obtain ⟨t, ht, hbuild⟩ := read_of_isReadAs hread
  rw [unaryTest_of_build ht hbuild, hts]
  rfl

/-- **All ways to search a list of data agree.** In a context that does not ask for reports and binds `xs` to a
list of data and `e` to any value, `list contains`, a membership, a quantifier and the test `xs` of the value all
tell whether one of the elements equals the value. The positions of the value are in ascending order those of the
elements that equal it, from one on; and if no element is a context, a filter by `item = e` keeps as many
elements. -/
theorem searches_agree (bindings : Fields) (items : List Value) (v : Value)
    (hxs : bindings.get? "xs" = some (.list items)) (he : bindings.get? "e" = some v)
    (hreport : bindings.get? Scope.reportKey = none) (hitems : ∀ w ∈ items, w.isPlain = true) :
    (evaluate .standard "list contains(xs, e)" bindings).outcome = .ok (.boolean (v.isAmong items)) ∧
    (evaluate .standard "e in xs" bindings).outcome = .ok (.boolean (v.isAmong items)) ∧
    (evaluate .standard "some y in xs satisfies y = e" bindings).outcome = .ok (.boolean (v.isAmong items)) ∧
    (unaryTest .standard "xs" (bindings.put Scope.inputKey v) false).outcome = .ok (.boolean (v.isAmong items)) ∧
    (evaluate .standard "index of(xs, e)" bindings).outcome =
      .ok (.list ((Library.positions v 1 items).map fun i : ℕ => .whole i)) ∧
    (v.isAmong items = true ↔ Library.positions v 1 items ≠ []) ∧
    (Library.positions v 1 items).Pairwise (· < ·) ∧
    (∀ i, i ∈ Library.positions v 1 items ↔ 1 ≤ i ∧ ∃ w, items[i - 1]? = some w ∧ w.eqv v = true) ∧
    ((∀ w ∈ items, w.kind ≠ .context) → (evaluate .standard "count(xs[item = e])" bindings).outcome =
      .ok (.whole (Library.positions v 1 items).length)) := by
  have hget : ∀ (c : Fields) {name : String} {w : Value}, Unregistered standardRegistry name →
      c.get? name = some w → (Expr.name name).eval standardRegistry (.ofFields c) = pure w :=
    fun c _ _ hname hw => eval_bound hname ((get_ofFields c _).trans hw)
  have hnoXs : Unregistered standardRegistry "xs" := .inl (by decide)
  have hnoE : Unregistered standardRegistry "e" := .inl (by decide)
  have hlist := hget bindings hnoXs hxs
  have helement := hget bindings hnoE he
  have hreports := reports_ofFields hreport
  -- a layer that does not bind `e` leaves it as it is
  have hinner : ∀ key : String, "e" ≠ key → ∀ w ∈ items,
      (Expr.name "e").eval standardRegistry ((Scope.ofFields bindings).extend [(key, w)]) = pure v :=
    fun key hkey w _ => eval_bound hnoE
      ((Scope.get_extend_other hkey _ w).trans ((get_ofFields bindings "e").trans he))
  have harguments : (Expr.evalItems standardRegistry [.name "xs", .name "e"] (.ofFields bindings)).outcome =
      .ok [.list items, v] := by
    rw [Expr.evalItems, Expr.evalItems, Expr.evalItems, hlist, helement]
    rfl
  refine ⟨?_, ?_, ?_, ?_, ?_, isAmong_iff_positions v items, ?_, mem_positions v items, fun hcontext => ?_⟩
  · exact evaluate_isReadAs
      (e := .call "list contains(xs, e)" (.name "list contains") [.name "xs", .name "e"]) (by decide +kernel)
      (call_outcome (eval_builtin .listContains _) rfl harguments)
  · exact evaluate_isReadAs (e := .member (.name "e") (.name "xs")) (by decide +kernel)
      (congrArg Run.outcome (member_searches hreports helement hlist hitems))
  · exact evaluate_isReadAs
      (e := .quantified .some [("y", .name "xs")] (.relation .equal (.name "y") (.name "e"))) (by decide +kernel)
      (some_searches hreports (by decide) (.inl (by decide)) (congrArg Run.outcome hlist)
        (hinner "y" (by decide)))
  · have hinput : (Scope.ofFields (bindings.put Scope.inputKey v)).get Scope.inputKey = v := by
      unfold Scope.get
      rw [get_ofFields, Fields.get_put, if_pos rfl]
      rfl
    have hput : (bindings.put Scope.inputKey v).get? "xs" = some (.list items) := by
      rw [Fields.get_put, if_neg (by decide), hxs]
    have hread : isReadAs true "xs" (.tests ⟨false, [.list [.name "xs"]]⟩) = true := by decide +kernel
    refine unaryTest_isReadAs hread ?_
    rw [hinput]
    exact tests_search (hget _ hnoXs hput)
  · exact evaluate_isReadAs (e := .call "index of(xs, e)" (.name "index of") [.name "xs", .name "e"])
      (by decide +kernel) (call_outcome (eval_builtin .indexOf _) rfl harguments)
  · rw [positions_eq_findIdxs]
    exact List.pairwise_findIdxs
  · have hkept := filter_searches hreports (.inl (by decide)) (congrArg Run.outcome hlist) hcontext
      (hinner "item" (by decide))
    have hfiltered : (Expr.evalItems standardRegistry
        [.filter (.name "xs") (.relation .equal (.name "item") (.name "e"))] (.ofFields bindings)).outcome =
          .ok [.list (items.filter (·.eqv v))] := by
      rw [Expr.evalItems, Run.bind_outcome, hkept]
      rfl
    rw [length_positions]
    exact evaluate_isReadAs (e := .call "count(xs[item = e])" (.name "count")
      [.filter (.name "xs") (.relation .equal (.name "item") (.name "e"))]) (by decide +kernel)
      (call_outcome (eval_builtin .count _) rfl hfiltered)

/-- One is found where true stands, and nowhere else. -/
theorem one_found_as_true :
    (evaluate .standard "e in xs"
        [("xs", .list [.null, .boolean true, .list [.whole 1]]), ("e", .whole 1)]).outcome = .ok (.boolean true) ∧
      (evaluate .standard "index of(xs, e)"
        [("xs", .list [.null, .boolean true, .list [.whole 1]]), ("e", .whole 1)]).outcome = .ok (.list [.whole 2]) ∧
      (evaluate .standard "count(xs[item = e])"
        [("xs", .list [.null, .boolean true, .list [.whole 1]]), ("e", .whole 1)]).outcome = .ok (.whole 1) := by
  obtain ⟨-, hmember, -, -, hpositions, -, -, -, hcount⟩ := searches_agree
    [("xs", .list [.null, .boolean true, .list [.whole 1]]), ("e", .whole 1)]
    [.null, .boolean true, .list [.whole 1]] (.whole 1) rfl rfl rfl (by decide)
  exact ⟨hmember, hpositions, hcount (by decide)⟩

end Criterion

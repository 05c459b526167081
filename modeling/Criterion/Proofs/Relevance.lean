import Criterion.Memory.Sitting
import Criterion.Proofs.Naming

/-!
# An answer depends on the names of its source only

Two contexts may differ in all that a source does not name: its answer, its failure, the calls that it
makes and the trace that it leaves are the same.

* `Tree.contextKeys`: the keys of a context that a source may read.
* `agrees_of_contextKeys`: contexts that agree on these keys make scopes that agree on the names.
* `answers_read_contextKeys`: **evaluation and unary tests read no other keys**, where values tell the answer.
* `appended_list_counts_two`: a source that changes a list of its context.
-/

namespace Criterion

/-- The keys of a context that a source may read: those of its names, that of the tested value and
that of reports. -/
def Tree.contextKeys (t : Tree) : List String := Scope.inputKey :: Scope.reportKey :: t.keys

section Contexts

variable {c d : Fields} {t : Tree} {source : String}

theorem get_ofFields (c : Fields) (name : String) : (Scope.ofFields c).get? name = c.get? name := by
  unfold Scope.ofFields Scope.get?
  rw [List.findSome?_cons]
  cases c.get? name <;> rfl

/-- A context that does not ask for reports. -/
theorem reports_ofFields (hkey : c.get? Scope.reportKey = none) : (Scope.ofFields c).reports = false := by
  unfold Scope.reports Scope.get
  rw [get_ofFields, hkey]
  rfl

/-- Contexts that agree on the keys of a tree make scopes that agree on the names known from it. -/
theorem agrees_of_contextKeys (h : ∀ k ∈ t.contextKeys, c.get? k = d.get? k) {names : List String}
    (hnames : ∀ n ∈ names, Known t.keys n) :
    Scope.Agrees names (Scope.ofFields c) (Scope.ofFields d) := by
  have hkeys : ∀ k ∈ t.keys, c.get? k = d.get? k := fun k hk =>
    h k (List.mem_cons_of_mem _ (List.mem_cons_of_mem _ hk))
  constructor
  · rw [get_ofFields, get_ofFields]
    exact h _ List.mem_cons_self
  · rw [get_ofFields, get_ofFields]
    exact h _ (List.mem_cons_of_mem _ List.mem_cons_self)
  · intro n hn
    rw [get_ofFields, get_ofFields]
    exact hkeys n (hnames n hn).1
  · intro n hn
    rw [get_ofFields, get_ofFields]
    exact hkeys _ (hnames n hn).2

theorem evaluate_agrees (s : Settings) (h : parse false source = .ok t)
    (hkeys : ∀ k ∈ t.contextKeys, c.get? k = d.get? k) :
    evaluate s source c = evaluate s source d := by
  unfold evaluate
  refine Run.bind_congr fun _ _ => Run.bind_congr fun tree htree => ?_
  refine Run.bind_congr fun made hmade => ?_
  obtain rfl : t = tree := Except.ok.inj (h.symm.trans htree)
  cases made with
  | none => rfl
  | some a =>
    have hbuilt : (t.build source).outcome = .ok (some a) := hmade
    obtain ⟨es, rfl⟩ : ∃ es, a = .expr (.list es) := stands_of_build h hbuilt
    have hagrees := agrees_of_contextKeys hkeys (names_of_parse h hbuilt)
    -- what is built is an expression: bindings would show the whole context
    have heval : (Artifact.expr (.list es)).eval s.registry (.ofFields c) =
        (Artifact.expr (.list es)).eval s.registry (.ofFields d) :=
      Expr.eval_agrees s.registry (.list es) _ _ hagrees
    simp only [heval]

theorem unaryTest_agrees (s : Settings) (reports : Bool) (h : parse true source = .ok t)
    (hkeys : ∀ k ∈ t.contextKeys, c.get? k = d.get? k) :
    unaryTest s source c reports = unaryTest s source d reports := by
  unfold unaryTest
  refine Run.bind_congr fun _ _ => Run.bind_congr fun tree htree => ?_
  refine Run.bind_congr fun made hmade => ?_
  obtain rfl : t = tree := Except.ok.inj (h.symm.trans htree)
  cases made with
  | none => rfl
  | some a =>
    have hbuilt : (t.build source).outcome = .ok (some a) := hmade
    obtain ⟨ts, rfl⟩ : ∃ ts, a = .tests ts := stands_of_build h hbuilt
    have hagrees := agrees_of_contextKeys hkeys (names_of_parse h hbuilt)
    -- the layer that asks for reports lies over both contexts
    have hlayer : Scope.Agrees (Expr.namesOfItems ts.tests)
        (if reports then (Scope.ofFields c).extend [(Scope.reportKey, .boolean true)]
          else Scope.ofFields c)
        (if reports then (Scope.ofFields d).extend [(Scope.reportKey, .boolean true)]
          else Scope.ofFields d) := by
      cases reports with
      | true => exact hagrees.extend _
      | false => exact hagrees
    simp only [hlayer.get_input, ts.eval_agrees s.registry _ hlayer]

end Contexts

/-- **An answer depends on the names of its source only.** Contexts that agree on the keys of a tree,
each of which is missing in both or has the same value in both, give its source the same answer or
the same failure, with the same calls in the same order; so they do for unary tests, with reports
and without. This is so unless a function is called whose answer the values do not tell, which may change
a list. -/
theorem answers_read_contextKeys (s : Settings) (source : String) (t : Tree) (c d : Fields)
    (hkeys : ∀ k ∈ t.contextKeys, c.get? k = d.get? k) :
    (parse false source = .ok t → evaluate s source c = evaluate s source d ∧
      ((evaluate s source c).isBeyond = false → respond s source c = respond s source d)) ∧
    (parse true source = .ok t → ∀ reports,
      unaryTest s source c reports = unaryTest s source d reports ∧
      ((unaryTest s source c reports).isBeyond = false →
        respondUnary s source c reports = respondUnary s source d reports)) := by
  constructor
  · intro h
    have hsame := evaluate_agrees s h hkeys
    refine ⟨hsame, fun htold => ?_⟩
    rw [respond_of_told htold, respond_of_told (hsame ▸ htold), hsame]
  · intro h reports
    have hsame := unaryTest_agrees s reports h hkeys
    refine ⟨hsame, fun htold => ?_⟩
    rw [respondUnary_of_told htold, respondUnary_of_told (hsame ▸ htold), hsame]

theorem answers_read_dotted_name :
    respond .standard "a.b" [("c", .boolean true), ("a", .null)] =
        respond .standard "a.b" [("a", .null)] ∧
      ∀ reports, unaryTest .standard "a.b" [("c", .boolean true), ("a", .null)] reports =
        unaryTest .standard "a.b" [("a", .null)] reports := by
  have hname : parse false "a.b" = .ok (.node .expressions (some ⟨0, 3⟩)
      [.node .qualifiedName (some ⟨0, 3⟩) [.token ⟨.identifier, "a", some ⟨0, 1⟩⟩,
        .token ⟨.identifier, "b", some ⟨2, 3⟩⟩]]) := by rfl
  have htest : parse true "a.b" = .ok (.node .unaryTests (some ⟨0, 3⟩)
      [.node .positiveUnaryTests (some ⟨0, 3⟩)
        [.node .qualifiedName (some ⟨0, 3⟩) [.token ⟨.identifier, "a", some ⟨0, 1⟩⟩,
          .token ⟨.identifier, "b", some ⟨2, 3⟩⟩]]]) := by rfl
  have hkeys : ∀ k ∈ [Scope.inputKey, Scope.reportKey, "a.b", "a"],
      Fields.get? [("c", .boolean true), ("a", .null)] k = Fields.get? [("a", .null)] k := by
    intro k hk
    simp only [List.mem_cons, List.not_mem_nil, or_false] at hk
    rcases hk with rfl | rfl | rfl | rfl <;> rfl
  have htold : (evaluate .standard "a.b" [("c", .boolean true), ("a", .null)]).isBeyond = false := by
    decide +kernel
  refine ⟨((answers_read_contextKeys .standard _ _ _ _ ?_).1 hname).2 htold,
    fun reports => ((answers_read_contextKeys .standard _ _ _ _ ?_).2 htest reports).1⟩
  · exact hkeys
  · exact hkeys

/-- The whole number that a step is answered with. -/
def Reply.whole? : Reply → Option Int
  | .value (.number (.whole i)) => some i
  | _ => none

/-- One source in the same variables, twice: it appends to a list of them and counts it. The list has one
element for the first answer, and two for the second. -/
theorem appended_list_counts_two :
    let count : Step := .evaluate "[[l].append[1](1), count(l)][2]" [] none
    ((Sitting.start .standard).replies [.set "l" (.list []), count, count]).map
        (fun reply => reply.outcome.toOption.bind Reply.whole?) =
      [none, some 1, some 2] := by
  decide +kernel

end Criterion

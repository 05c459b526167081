import Criterion.Proofs.Subterms

/-!
# Where operands stand

Some forms of expressions evaluate all their operands, and a call evaluates what it calls and its arguments. The
operands of an expression are in the order of the source: each is built from a part of its own, and these parts
stand one after the other.

* `Expr.operands`: the operands of an expression, and `Artifact.carried`: the expressions that a part hands on.
* `HandOn.expr`, `HandOn.artifact`: a rule takes its operands from its parts, in their order.
* `SetIn`: expressions that are built from trees one after the other.
* `operands_in_place`: **the operands of an expression stand in the source one after the other.**
-/

namespace Criterion

/-! ## Operands -/

/-- The operands of a form that evaluates them all, and what a call evaluates: its target, unless the target is
part of the form, and its arguments. -/
def Expr.operands : Expr → List Expr
  | .list items => items
  | .context entries => entries.map (·.2)
  | .unary _ a => [a]
  | .arithmetic _ a b | .relation _ a b | .disjunction a b | .conjunction a b => [a, b]
  | .between a low high => [a, low, high]
  | .interval _ _ start stop _ => [start, stop]
  | .call _ (.registered _) arguments => arguments
  | .call _ callee arguments => callee :: arguments
  | _ => []

/-- The operands of what is made of a part, and the expressions in it that become operands as they are. -/
def Artifact.operands : Artifact → List Expr
  | .expr e => e.operands
  | .entry _ value => [value]
  | .arguments es => es
  | _ => []

/-- The expressions that a part hands on to the form around it. -/
def Artifact.carried : Artifact → List Expr
  | .entry _ value => [value]
  | .arguments es => es
  | a => a.operand?.toList

/-- The parts hand these expressions on, in this order. They may hand on others between them. -/
def HandOn (as : List Artifact) (es : List Expr) : Prop := es.Sublist (as.flatMap Artifact.carried)

section Parts

variable {a b : Artifact} {as : List Artifact} {e x : Expr} {es : List Expr}

theorem carried_of_operand (h : a.operand? = some x) : a.carried = [x] := by
  cases a <;> cases h <;> rfl

namespace HandOn

theorem nil (as : List Artifact) : HandOn as [] := List.nil_sublist _

/-- One expression comes from the first part and the others from the parts behind it. -/
theorem take (h : a.operand? = some x) (hes : HandOn as es) : HandOn (a :: as) (x :: es) := by
  unfold HandOn
  rw [List.flatMap_cons, carried_of_operand h]
  exact hes.cons_cons x

theorem skip (a : Artifact) (hes : HandOn as es) : HandOn (a :: as) es := by
  unfold HandOn
  rw [List.flatMap_cons]
  exact hes.trans (List.sublist_append_right _ _)

theorem arguments (es : List Expr) : HandOn [.arguments es] es := by
  unfold HandOn
  rw [List.flatMap_singleton]
  exact .refl es

theorem operands (h : as.mapM Artifact.operand? = some es) : HandOn as es := by
  induction as generalizing es with
  | nil =>
    cases h
    exact nil []
  | cons a as ih =>
    rw [List.mapM_cons] at h
    obtain ⟨x, hx, h⟩ := Option.bind_eq_some_iff.1 h
    obtain ⟨xs, hxs, h⟩ := Option.bind_eq_some_iff.1 h
    cases h
    exact take hx (ih hxs)

theorem entries {entries : List (String × Expr)} (h : as.mapM Artifact.entry? = some entries) :
    HandOn as (entries.map (·.2)) := by
  induction as generalizing entries with
  | nil =>
    cases h
    exact nil []
  | cons a as ih =>
    rw [List.mapM_cons] at h
    obtain ⟨p, hp, h⟩ := Option.bind_eq_some_iff.1 h
    obtain ⟨ps, hps, h⟩ := Option.bind_eq_some_iff.1 h
    cases h
    cases a <;> cases hp
    exact (ih hps).cons_cons _

/-- What is called comes before the arguments, if it is a part. -/
theorem call (text : String) (h : a.operand? = some x) (es : List Expr) :
    HandOn [a, .arguments es] (Expr.call text x es).operands := by
  have hall : HandOn [a, .arguments es] (x :: es) := take h (arguments es)
  cases x with
  | registered n => exact (List.sublist_cons_self _ _).trans hall
  | _ => exact hall

theorem comparison (h : Rule.comparison? as = some e) : HandOn as e.operands := by
  unfold Rule.comparison? at h
  split at h
  all_goals simp [Option.bind_eq_some_iff] at h
  all_goals grind [Expr.operands, nil, take, skip]

/-- A rule that makes an expression takes its operands from its parts. -/
theorem expr {rule : Rule} {site : ℕ} {text : String} (h : rule.expr? site text as = some e) :
    HandOn as e.operands := by
  have hlist : (do return .list (← as.mapM Artifact.operand?)) = some e → HandOn as e.operands := by
    intro h
    obtain ⟨es, hes, h⟩ := Option.bind_eq_some_iff.1 h
    cases h
    exact operands hes
  have hcontext : (do return .context (← as.mapM Artifact.entry?)) = some e → HandOn as e.operands := by
    intro h
    obtain ⟨es, hes, h⟩ := Option.bind_eq_some_iff.1 h
    cases h
    exact entries hes
  unfold Rule.expr? at h
  split at h
  all_goals first
    | exact hlist h
    | exact hcontext h
    | exact comparison h
    | skip
  -- the other rules take a fixed number of parts apart
  all_goals simp [Option.bind_eq_some_iff] at h
  all_goals grind [Expr.operands, nil, take, skip, arguments, call]

/-- A rule makes nothing of a part but the part itself, or takes the operands of what it makes from its parts. -/
theorem artifact {rule : Rule} {site : ℕ} {text : String} (h : rule.artifact? site text as = some b) :
    b ∈ as ∨ HandOn as b.operands := by
  have harguments : (as.mapM Artifact.operand?).map .arguments = some b → HandOn as b.operands := by
    intro h
    obtain ⟨es, hes, rfl⟩ := Option.map_eq_some_iff.1 h
    exact operands hes
  have hexpr : (rule.expr? site text as).map .expr = some b → HandOn as b.operands := by
    intro h
    obtain ⟨e, he, rfl⟩ := Option.map_eq_some_iff.1 h
    exact expr he
  unfold Rule.artifact? at h
  split at h
  all_goals first
    | exact .inr (harguments h)
    | exact .inr (hexpr h)
    | skip
  all_goals simp [Option.bind_eq_some_iff] at h
  all_goals grind [Artifact.operands, nil, take, skip]

end HandOn

/-- A part hands on the expression that it is, or its operands if it is none. -/
theorem carried_cases (a : Artifact) : (∃ x, a.operand? = some x) ∨ a.carried = a.operands := by
  cases a with
  | expr e => exact .inl ⟨e, rfl⟩
  | arithmetic | relation | quantifier | tests => exact .inl ⟨.procedure, rfl⟩
  | _ => exact .inr rfl

end Parts

/-! ## Parts of trees -/

/-- The tree is built into what is this expression where a value is expected. -/
def Tree.Makes (source : String) (t : Tree) (e : Expr) : Prop :=
  ∃ a, (t.build source).outcome = .ok (some a) ∧ a.operand? = some e

/-- Parts of some trees make the expressions, and come of tokens one part after the other. -/
def SetIn (source : String) (us : List Tree) (w : List Lexeme) (es : List Expr) : Prop :=
  ∃ ts, Laid w ts ∧ (∀ t ∈ ts, ∃ u ∈ us, u.IsPart t) ∧ List.Forall₂ (Tree.Makes source) ts es

theorem Laid.sublist {w : List Lexeme} {ts us : List Tree} (h : Laid w ts) (hus : us.Sublist ts) : Laid w us := by
  induction h generalizing us with
  | nil gap =>
    rw [List.sublist_nil.1 hus]
    exact .nil gap
  | @cons gap v w t ts ht _ ih =>
    cases hus with
    | cons _ hus => exact ((ih hus).append_left v).append_left gap
    | cons_cons _ hus => exact .cons gap ht (ih hus)

/-- What is related to fewer elements is found among what is related to all of them. -/
theorem exists_sublist_forall₂ {α β : Type} {R : α → β → Prop} {xs : List α} {ys zs : List β}
    (h : List.Forall₂ R xs ys) (hzs : zs.Sublist ys) : ∃ us, us.Sublist xs ∧ List.Forall₂ R us zs := by
  induction h generalizing zs with
  | nil =>
    rw [List.sublist_nil.1 hzs]
    exact ⟨[], .slnil, .nil⟩
  | cons hxy _ ih =>
    cases hzs with
    | cons _ hzs =>
      obtain ⟨us, hus, hrelated⟩ := ih hzs
      exact ⟨us, hus.cons _, hrelated⟩
    | cons_cons _ hzs =>
      obtain ⟨us, hus, hrelated⟩ := ih hzs
      exact ⟨_ :: us, hus.cons_cons _, .cons hxy hrelated⟩

namespace SetIn

variable {source : String} {us us' : List Tree} {v w : List Lexeme} {es es' : List Expr} {u : Tree} {x : Expr}

theorem nil (us : List Tree) (w : List Lexeme) : SetIn source us w [] :=
  ⟨[], .nil w, fun _ ht => absurd ht List.not_mem_nil, .nil⟩

theorem single (hu : u.ComesOf v) (hx : u.Makes source x) : SetIn source [u] v [x] := by
  have hlaid : Laid ([] ++ (v ++ [])) [u] := .cons [] hu (.nil [])
  rw [List.nil_append, List.append_nil] at hlaid
  refine ⟨[u], hlaid, fun t ht => ⟨u, List.mem_singleton_self u, ?_⟩, .cons hx .nil⟩
  rw [List.mem_singleton.1 ht]
  exact .self

theorem append (h : SetIn source us v es) (h' : SetIn source us' w es') :
    SetIn source (us ++ us') (v ++ w) (es ++ es') := by
  obtain ⟨ts, hlaid, hparts, hmakes⟩ := h
  obtain ⟨ts', hlaid', hparts', hmakes'⟩ := h'
  refine ⟨ts ++ ts', hlaid.append hlaid', fun t ht => ?_, List.rel_append hmakes hmakes'⟩
  rcases List.mem_append.1 ht with ht | ht
  · obtain ⟨u, hu, hpart⟩ := hparts t ht
    exact ⟨u, List.mem_append_left _ hu, hpart⟩
  · obtain ⟨u, hu, hpart⟩ := hparts' t ht
    exact ⟨u, List.mem_append_right _ hu, hpart⟩

theorem gap (before : List Lexeme) (h : SetIn source us w es) : SetIn source us (before ++ w) es := by
  obtain ⟨ts, hlaid, hmakes⟩ := h
  exact ⟨ts, hlaid.append_left before, hmakes⟩

/-- Another tree before them takes nothing away. -/
theorem behind (u : Tree) (v : List Lexeme) (h : SetIn source us w es) : SetIn source (u :: us) (v ++ w) es :=
  (nil [u] v).append h

theorem sublist (h : SetIn source us w es) (hes : es'.Sublist es) : SetIn source us w es' := by
  obtain ⟨ts, hlaid, hparts, hmakes⟩ := h
  obtain ⟨ts', hts, hmakes'⟩ := exists_sublist_forall₂ hmakes hes
  exact ⟨ts', hlaid.sublist hts, fun t ht => hparts t (hts.subset ht), hmakes'⟩

/-- Parts of the trees below a tree are parts of that tree. -/
theorem node {rule : Rule} {span : Option Span} (h : SetIn source us w es) :
    SetIn source [.node rule span us] w es := by
  obtain ⟨ts, hlaid, hparts, hmakes⟩ := h
  refine ⟨ts, hlaid, fun t ht => ⟨_, List.mem_singleton_self _, ?_⟩, hmakes⟩
  obtain ⟨u, hu, hpart⟩ := hparts t ht
  exact hpart.of_child hu rule span

/-- What is built from a tree hands on what parts of this tree make. -/
theorem carried {a : Artifact} (hu : u.ComesOf v) (ha : (u.build source).outcome = .ok (some a))
    (h : SetIn source [u] v a.operands) : SetIn source [u] v a.carried := by
  obtain ⟨x, hx⟩ | hcarried := carried_cases a
  · rw [carried_of_operand hx]
    exact single hu ⟨a, ha, hx⟩
  · rwa [hcarried]

end SetIn

theorem operands_of_token {k : Token} {a : Artifact} (h : k.assemble = .ok a) : a.operands = [] := by
  have hflat := flat_of_token h
  cases a with
  | expr e => cases e <;> first | rfl | exact hflat.elim
  | _ => first | rfl | exact hflat.elim

mutual

/-- The operands of what a tree is built into are made by its parts, one after the other. -/
theorem setIn_tree (source : String) : ∀ (u : Tree) {v : List Lexeme} {a : Artifact}, u.ComesOf v →
    (∀ l ∈ v, l.Spelled) → (u.build source).outcome = .ok (some a) → SetIn source [u] v a.operands
  | .token k, v, a, hu, hv, ha => by
    cases hu with
    | token l =>
      have hl : l.token.kind.isTrivia = false := (hv l List.mem_cons_self).trivia
      have hassemble := artifacts_token hl source
      rw [artifacts_of_build ha] at hassemble
      cases hmade : l.token.assemble with
      | error f =>
        rw [hmade] at hassemble
        cases hassemble
      | ok b =>
        rw [hmade] at hassemble
        cases hassemble
        rw [operands_of_token hmade]
        exact .nil _ _
  | .node rule span us, v, a, hu, hv, ha => by
    cases hu with
    | @node n p _ _ _ hp hr hd =>
      have hrule : rule ≠ .ambiguous := by
        rintro rfl
        exact n.node_ne_ambiguous p hp hr
      rw [build_node hrule] at ha
      cases has : (Tree.artifacts source us).outcome with
      | error f =>
        rw [has] at ha
        cases ha
      | ok as =>
        obtain ⟨hcarried, hoperands⟩ := setIn_trees source us hd.laid hv has
        rw [has] at ha
        cases hb : (Tree.node rule (spanOf v) us).assemble source as with
        | error f =>
          simp only [bind, Except.bind, hb] at ha
          cases ha
        | ok b =>
          simp only [bind, Except.bind, hb] at ha
          cases ha
          obtain hmem | hhand := HandOn.artifact (Nonterminal.artifact_of_assemble hb)
          · exact (hoperands a hmem).node
          · exact (hcarried.sublist hhand).node

/-- So are the expressions that some trees hand on, and the operands of each of them. -/
theorem setIn_trees (source : String) : ∀ (us : List Tree) {w : List Lexeme} {as : List Artifact}, Laid w us →
    (∀ l ∈ w, l.Spelled) → (Tree.artifacts source us).outcome = .ok as →
      SetIn source us w (as.flatMap Artifact.carried) ∧ ∀ a ∈ as, SetIn source us w a.operands
  | [], w, as, _, _, has => by
    cases has
    exact ⟨.nil [] w, fun a ha => absurd ha List.not_mem_nil⟩
  | u :: us, _, as, .cons gap (v := v) (w := w) hu hus, hw, has => by
    obtain ⟨-, hvw⟩ := List.forall_mem_append.1 hw
    obtain ⟨hv, hw⟩ := List.forall_mem_append.1 hvw
    rw [artifacts_cons] at has
    obtain ⟨made, hmade, has⟩ := Run.bind_outcome_ok has
    obtain ⟨bs, hbs, has⟩ := Run.bind_outcome_ok has
    cases has
    rw [← build_eq_artifact] at hmade
    obtain ⟨hcarried, hoperands⟩ := setIn_trees source us hus hw hbs
    cases made with
    | none => exact ⟨(hcarried.behind u v).gap gap, fun a ha => ((hoperands a ha).behind u v).gap gap⟩
    | some a =>
      have ha := setIn_tree source u hu hv hmade
      have hall := (SetIn.carried hu hmade ha).append hcarried
      refine ⟨hall.gap gap, List.forall_mem_cons.2 ⟨?_, fun b hb => ?_⟩⟩
      · have hfirst := ha.append (.nil us w)
        rw [List.append_nil] at hfirst
        exact hfirst.gap gap
      · exact ((hoperands b hb).behind u v).gap gap

end

/-- **The operands of an expression stand in the source one after the other.** A part of the tree of a source that
is built into an expression has parts that make its operands, one for each and in their order: each of them stops
before the next one starts. -/
theorem operands_in_place {unary : Bool} {source : String} {t u : Tree} {e : Expr} (h : parse unary source = .ok t)
    (hu : t.IsPart u) (he : (u.build source).outcome = .ok (some (.expr e))) :
    ∃ ts : List Tree, ∃ spans : List Span, List.Forall₂ (Tree.Makes source) ts e.operands ∧
      (∀ part ∈ ts, u.IsPart part) ∧ ts.map Tree.span = spans.map some ∧
      spans.Pairwise fun c d => c.stop ≤ d.start := by
  obtain ⟨ls, htokens, ht⟩ := tells_of_parse h
  obtain ⟨v, hv, hcomes⟩ := (comesOf_of_tells ht).of_isPart hu
  have hspelled : ∀ l ∈ v, l.Spelled := fun l hl => htokens.spelled l (hv.subset hl)
  obtain ⟨ts, hlaid, hparts, hmakes⟩ := setIn_tree source u hcomes hspelled he
  obtain ⟨spans, hspans, -, happart⟩ := hlaid.spans (htokens.inOrder.of_part hv)
  refine ⟨ts, spans, hmakes, fun part hpart => ?_, hspans, happart⟩
  obtain ⟨w, hw, hpart⟩ := hparts part hpart
  rwa [List.mem_singleton.1 hw] at hpart

end Criterion

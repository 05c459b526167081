import Criterion.Proofs.Decision
import Criterion.Proofs.Moves

/-!
# Sources that stand in longer ones

Where a source stands in a longer one, its trees stand there too, with their places moved by the length of
what goes before. They are made into the same artifacts, with the places of the tests moved.

* `Tree.moved`: a tree with all its spans moved.
* `Span.slice_moved`: a moved span covers in the longer source what the span covers in the source.
* `Artifact.moved`, `assemble_moved`: what a rule makes of moved parts is moved.
* `artifact_elsewhere`: a tree leaves the same wherever its source stands, but for the places of the tests.
* `make_moved`: **moved trees are made into moved expressions.**
-/

namespace Criterion

/-! ## Trees -/

/-- The span behind `k` more characters. -/
def Span.moved (k : ℕ) (s : Span) : Span := ⟨s.start + k, s.stop + k⟩

/-- How places move behind `k` more characters. -/
def placesBehind (k : ℕ) : ℕ ↪ ℕ := ⟨(· + k), fun _ _ h => Nat.add_right_cancel h⟩

/-- The token behind `k` more characters. -/
def Token.moved (k : ℕ) (t : Token) : Token := ⟨t.kind, t.text, t.span.map (Span.moved k)⟩

mutual

/-- The tree behind `k` more characters. -/
def Tree.moved (k : ℕ) : Tree → Tree
  | .token t => .token (t.moved k)
  | .node rule span children => .node rule (span.map (Span.moved k)) (movedTrees k children)

def movedTrees (k : ℕ) : List Tree → List Tree
  | [] => []
  | t :: rest => t.moved k :: movedTrees k rest

end

theorem movedTrees_eq (k : ℕ) (ts : List Tree) : movedTrees k ts = ts.map (Tree.moved k) := by
  induction ts with
  | nil => rfl
  | cons t rest ih => rw [movedTrees, ih, List.map_cons]

/-- A span covers in a longer source what it covers in the source. -/
theorem Span.slice_moved {source whole : String} {before after : List Char}
    (h : whole.toList = before ++ (source.toList ++ after)) {s : Span} (hs : s.stop ≤ source.length) :
    (s.moved before.length).slice whole = s.slice source := by
  have hstop : s.stop ≤ source.toList.length := by rwa [String.length_toList]
  have hcount : s.stop + before.length - (s.start + before.length) = s.stop - s.start := by omega
  unfold Span.slice Span.moved
  rw [h, hcount, Nat.add_comm s.start, List.drop_length_add_append]
  refine congrArg String.ofList ?_
  by_cases hstart : s.start ≤ source.toList.length
  · rw [List.drop_append_of_le_length hstart, List.take_append_of_le_length]
    rw [List.length_drop]
    omega
  · -- nothing lies between a start behind the end and a stop before it
    have hnone : s.stop - s.start = 0 := by omega
    rw [hnone, List.take_zero, List.take_zero]

/-! ## Artifacts -/

/-- The artifact with the places of its tests moved. -/
def Artifact.moved (ρ : ℕ ↪ ℕ) : Artifact → Artifact
  | .expr e => .expr (e.moved ρ)
  | .entry key value => .entry key (value.moved ρ)
  | .binding name domain => .binding name (domain.moved ρ)
  | .bindings bs => .bindings (Expr.movedEntries ρ bs)
  | .arguments es => .arguments (Expr.movedItems ρ es)
  | .tests ts => .tests ⟨ts.negated, Expr.movedItems ρ ts.tests⟩
  | .text s => .text s
  | .arithmetic op => .arithmetic op
  | .relation op => .relation op
  | .quantifier q => .quantifier q

section Artifacts

variable {ρ : ℕ ↪ ℕ} {a b : Artifact} {as : List Artifact} {e : Expr}

namespace Artifact

@[simp] theorem moved_text (s : String) : (text s).moved ρ = .text s := rfl

@[simp] theorem moved_expr (e : Expr) : (expr e).moved ρ = .expr (e.moved ρ) := rfl

@[simp] theorem moved_relation (op : Relation) : (relation op).moved ρ = .relation op := rfl

@[simp] theorem moved_arithmetic (op : Arithmetic) : (arithmetic op).moved ρ = .arithmetic op := rfl

@[simp] theorem moved_quantifier (q : Quantifier) : (quantifier q).moved ρ = .quantifier q := rfl

@[simp] theorem moved_entry (key : String) (value : Expr) :
    (entry key value).moved ρ = .entry key (value.moved ρ) := rfl

@[simp] theorem moved_binding (name : String) (domain : Expr) :
    (binding name domain).moved ρ = .binding name (domain.moved ρ) := rfl

@[simp] theorem moved_bindings (bs : List (String × Expr)) :
    (bindings bs).moved ρ = .bindings (Expr.movedEntries ρ bs) := rfl

@[simp] theorem moved_arguments (es : List Expr) :
    (arguments es).moved ρ = .arguments (Expr.movedItems ρ es) := rfl

end Artifact

@[simp] theorem operand_moved (a : Artifact) :
    (a.moved ρ).operand? = a.operand?.map (Expr.moved ρ) := by
  cases a <;> rfl

@[simp] theorem text_moved (a : Artifact) : (a.moved ρ).text? = a.text? := by
  cases a <;> rfl

@[simp] theorem key_moved (a : Artifact) : (a.moved ρ).key? = a.key? := by
  cases a with
  | expr e =>
    cases e with
    | choose condition yes no => cases no <;> rfl
    | _ => rfl
  | _ => rfl

/-- What is collected from changed artifacts, if each of them gives what it gave, changed. -/
theorem mapM_mapped {β : Type} {f : Artifact → Option β} {h : Artifact → Artifact} {g : β → β}
    (hf : ∀ a, f (h a) = (f a).map g) (as : List Artifact) : (as.map h).mapM f = (as.mapM f).map (List.map g) := by
  induction as with
  | nil => rfl
  | cons a as ih =>
    rw [List.map_cons, List.mapM_cons, List.mapM_cons, hf, ih]
    cases f a with
    | none => rfl
    | some b => cases as.mapM f <;> rfl

theorem Expr.movedItems_eq (es : List Expr) : Expr.movedItems ρ es = es.map (Expr.moved ρ) := by
  induction es with
  | nil => rfl
  | cons e rest ih => rw [Expr.movedItems, ih, List.map_cons]

theorem Expr.movedEntries_eq (bs : List (String × Expr)) :
    Expr.movedEntries ρ bs = bs.map fun p => (p.1, p.2.moved ρ) := by
  induction bs with
  | nil => rfl
  | cons p rest ih =>
    rw [Expr.movedEntries, ih, List.map_cons]

theorem mapM_operand_moved (as : List Artifact) :
    (as.map (Artifact.moved ρ)).mapM Artifact.operand? =
      (as.mapM Artifact.operand?).map (Expr.movedItems ρ) := by
  rw [mapM_mapped operand_moved, ← funext (Expr.movedItems_eq (ρ := ρ))]

theorem mapM_text_moved (as : List Artifact) :
    (as.map (Artifact.moved ρ)).mapM Artifact.text? = as.mapM Artifact.text? := by
  have htext : ∀ a : Artifact, (a.moved ρ).text? = a.text?.map id := fun a => by
    rw [text_moved, Option.map_id_fun, id]
  rw [mapM_mapped htext, List.map_id_fun, Option.map_id_fun, id]

theorem mapM_entry_moved (as : List Artifact) :
    (as.map (Artifact.moved ρ)).mapM Artifact.entry? =
      (as.mapM Artifact.entry?).map (Expr.movedEntries ρ) := by
  have hentry : ∀ a : Artifact, Artifact.entry? (a.moved ρ) =
      Option.map (fun p : String × Expr => (p.1, p.2.moved ρ)) ( Artifact.entry? a) := fun a => by cases a <;> rfl
  rw [mapM_mapped hentry, ← funext (Expr.movedEntries_eq (ρ := ρ))]

theorem mapM_binding_moved (as : List Artifact) :
    (as.map (Artifact.moved ρ)).mapM Artifact.binding? =
      (as.mapM Artifact.binding?).map (Expr.movedEntries ρ) := by
  have hbinding : ∀ a : Artifact,
      (a.moved ρ).binding? = a.binding?.map fun p => (p.1, p.2.moved ρ) := fun a => by cases a <;> rfl
  rw [mapM_mapped hbinding, ← funext (Expr.movedEntries_eq (ρ := ρ))]

theorem comparison_moved (h : Rule.comparison? as = some e) :
    Rule.comparison? (as.map (Artifact.moved ρ)) = some (e.moved ρ) := by
  have he : some (e.moved ρ) = (Rule.comparison? as).map (Expr.moved ρ) := by rw [h, Option.map_some]
  rw [he]
  clear he
  unfold Rule.comparison? at h
  split at h
  all_goals first
    | cases h
    | simp [Rule.comparison?, Expr.moved, Option.bind_map, Option.map_bind, Function.comp_def]

/-- A rule makes of moved parts what it makes of the parts, moved. -/
theorem expr_moved {site : ℕ} {text : String} {rule : Rule} (h : rule.expr? site text as = some e) :
    rule.expr? (ρ site) text (as.map (Artifact.moved ρ)) = some (e.moved ρ) := by
  have he : some (e.moved ρ) = (rule.expr? site text as).map (Expr.moved ρ) := by rw [h, Option.map_some]
  unfold Rule.expr? at h
  split at h
  all_goals first
    | exact comparison_moved h
    | cases h; done
    | cases h; rfl
    | rw [he]
      simp only [Rule.expr?, mapM_operand_moved, mapM_entry_moved, mapM_text_moved]
      simp [Expr.moved, Option.bind_map, Option.map_bind, Function.comp_def]

/-- Tests of changed parts, if what is changed is the tests only. -/
theorem tests_mapped {h : Artifact → Artifact} {g : Expr → Expr} (hoperand : ∀ a, (h a).operand? = a.operand?.map g)
    (htext : ∀ a s, h a = .text s ↔ a = .text s) (as : List Artifact) :
    Rule.unaryTests? (as.map h) = (Rule.unaryTests? as).map fun ts => ⟨ts.negated, ts.tests.map g⟩ := by
  by_cases hnot : ∃ rest, as = .text "not" :: rest
  · obtain ⟨rest, rfl⟩ := hnot
    have hnegated : ∀ bs : List Artifact, Rule.unaryTests? (.text "not" :: bs) =
        (((bs.drop 1).dropLast).mapM Artifact.operand?).map fun es => ⟨true, es⟩ := by
      intro bs
      change (do return (⟨true, ← ((bs.drop 1).dropLast).mapM Artifact.operand?⟩ : UnaryTests)) = _
      cases ((bs.drop 1).dropLast).mapM Artifact.operand? <;> rfl
    rw [List.map_cons, (htext _ _).2 rfl, hnegated, hnegated, ← List.map_drop, ← List.map_dropLast,
      mapM_mapped hoperand, Option.map_map, Option.map_map]
    rfl
  · have hplain : ∀ bs : List Artifact, (¬ ∃ rest, bs = .text "not" :: rest) →
        Rule.unaryTests? bs = (bs.mapM Artifact.operand?).map fun es => ⟨false, es⟩ := by
      intro bs hbs
      unfold Rule.unaryTests?
      split
      · exact absurd ⟨_, rfl⟩ hbs
      · cases bs.mapM Artifact.operand? <;> rfl
    have hnot' : ¬ ∃ rest, as.map h = .text "not" :: rest := by
      rintro ⟨rest, hrest⟩
      obtain ⟨a, tail, rfl, ha, -⟩ := List.map_eq_cons_iff.1 hrest
      obtain rfl := (htext _ _).1 ha
      exact hnot ⟨tail, rfl⟩
    rw [hplain _ hnot, hplain _ hnot', mapM_mapped hoperand, Option.map_map, Option.map_map]
    rfl

theorem tests_moved (as : List Artifact) : Rule.unaryTests? (as.map (Artifact.moved ρ)) =
    (Rule.unaryTests? as).map fun ts => ⟨ts.negated, Expr.movedItems ρ ts.tests⟩ := by
  rw [tests_mapped operand_moved (fun a s => by cases a <;> simp [Artifact.moved]) as]
  simp only [Expr.movedItems_eq]

/-- What a rule makes of moved parts is moved. -/
theorem artifact_moved {site : ℕ} {text : String} {rule : Rule} (h : rule.artifact? site text as = some b) :
    rule.artifact? (ρ site) text (as.map (Artifact.moved ρ)) = some (b.moved ρ) := by
  have hb : some (b.moved ρ) = (rule.artifact? site text as).map (Artifact.moved ρ) := by
    rw [h, Option.map_some]
  have htests : (Rule.unaryTests? as).map .tests = some b →
      (Rule.unaryTests? (as.map (Artifact.moved ρ))).map .tests = some (b.moved ρ) := by
    intro h
    obtain ⟨ts, hts, rfl⟩ := Option.map_eq_some_iff.1 h
    rw [tests_moved, hts]
    rfl
  have hexpr : (rule.expr? site text as).map .expr = some b →
      rule.artifact? (ρ site) text (as.map (Artifact.moved ρ)) = some (b.moved ρ) := by
    intro h
    obtain ⟨e, he, rfl⟩ := Option.map_eq_some_iff.1 h
    have hmoved := expr_moved (ρ := ρ) he
    revert hmoved
    generalize as.map (Artifact.moved ρ) = bs
    intro hmoved
    unfold Rule.artifact?
    split
    all_goals first
      | rw [hmoved]; rfl
      | simp [Rule.expr?] at hmoved
  unfold Rule.artifact? at h
  split at h
  all_goals first
    | exact htests h
    | exact hexpr h
    | cases h; done
    | cases h; rfl
    | rw [hb]
      simp only [Rule.artifact?, mapM_operand_moved, mapM_binding_moved]
      simp [Option.bind_map, Option.map_bind, Function.comp_def]

theorem assemble_moved {site : ℕ} {text : String} {rule : Rule} (h : rule.assemble site text as = .ok b) :
    rule.assemble (ρ site) text (as.map (Artifact.moved ρ)) = .ok (b.moved ρ) :=
  Nonterminal.assemble_of_artifact (artifact_moved (Nonterminal.artifact_of_assemble h))

/-- What has no parts has no places. -/
theorem Artifact.IsFlat.moved (h : a.IsFlat) : a.moved ρ = a := by
  cases a with
  | expr e => cases e <;> first | rfl | exact h.elim
  | text | arithmetic | relation | quantifier => rfl
  | _ => exact h.elim

/-- A token stands for the same at each place. -/
theorem token_moved {k : Token} (h : k.assemble = .ok a) (n : ℕ) : (k.moved n).assemble = .ok (a.moved ρ) := by
  rw [(flat_of_token h).moved]
  exact h

end Artifacts

/-! ## Trees that are made -/

section Trees

variable {source whole whole' : String} {before after before' after' : List Char} {ρ : ℕ ↪ ℕ}

/-- All parts of a tree stand inside a source. -/
def Tree.Inside (source : String) (t : Tree) : Prop :=
  ∀ u, t.IsPart u → ∃ s, u.span = some s ∧ s.stop ≤ source.length

theorem Tree.Inside.child {rule : Rule} {span : Option Span} {children : List Tree}
    (h : (Tree.node rule span children).Inside source) {t : Tree} (ht : t ∈ children) : t.Inside source :=
  fun u hu => h u (hu.of_child ht rule span)

/-- The places of a tree that stands behind `j` characters move to where it stands behind `k` characters. -/
def Tree.Shifts (ρ : ℕ ↪ ℕ) (j k : ℕ) (t : Tree) : Prop :=
  ∀ u, t.IsPart u → ∀ s, u.span = some s → ρ (s.start + j) = s.start + k

theorem Tree.Shifts.child {rule : Rule} {span : Option Span} {children : List Tree} {j k : ℕ}
    (h : (Tree.node rule span children).Shifts ρ j k) {t : Tree} (ht : t ∈ children) : t.Shifts ρ j k :=
  fun u hu => h u (hu.of_child ht rule span)

/-- What a node is made of where a source stands in a longer one, it is made of where it stands in another. -/
theorem assemble_elsewhere (hwhole : whole.toList = before ++ (source.toList ++ after))
    (hwhole' : whole'.toList = before' ++ (source.toList ++ after')) {rule : Rule} {s : Span}
    {us us' : List Tree} {parts : List Artifact} {a : Artifact} (hs : s.stop ≤ source.length)
    (hρ : ρ (s.start + before.length) = s.start + before'.length)
    (h : (Tree.node rule (some (s.moved before.length)) us).assemble whole parts = .ok a) :
    (Tree.node rule (some (s.moved before'.length)) us').assemble whole' (parts.map (Artifact.moved ρ)) =
      .ok (a.moved ρ) := by
  have hmade : rule.assemble (s.start + before.length) ((s.moved before.length).slice whole) parts = .ok a := h
  have hmoved := assemble_moved (ρ := ρ) hmade
  rw [Span.slice_moved hwhole hs, ← Span.slice_moved hwhole' hs, hρ] at hmoved
  exact hmoved

mutual

/-- **A tree leaves the same wherever its source stands**, but for the places of the tests. -/
theorem artifact_elsewhere (hwhole : whole.toList = before ++ (source.toList ++ after))
    (hwhole' : whole'.toList = before' ++ (source.toList ++ after')) :
    ∀ t : Tree, t.Inside source → t.Shifts ρ before.length before'.length → ∀ {a : Option Artifact},
    (Tree.artifact whole (t.moved before.length)).outcome = .ok a →
      (Tree.artifact whole' (t.moved before'.length)).outcome = .ok (a.map (Artifact.moved ρ))
  | .token k, _, _, a, h => by
    rw [Tree.moved] at h ⊢
    unfold Tree.artifact at h ⊢
    by_cases hk : k.kind.isTrivia = true
    · rw [if_pos (show (k.moved _).kind.isTrivia = true from hk)] at h
      cases h
      exact congrArg Run.outcome (if_pos hk)
    · rw [if_neg (show ¬ (k.moved _).kind.isTrivia = true from hk)] at h
      obtain ⟨-, -, h⟩ := Run.bind_outcome_ok h
      obtain ⟨made, hmade, h⟩ := Run.bind_outcome_ok h
      obtain ⟨-, -, h⟩ := Run.bind_outcome_ok h
      cases h
      have hmoved := token_moved (ρ := ρ) (k := k) hmade before'.length
      rw [if_neg (show ¬ (k.moved before'.length).kind.isTrivia = true from hk)]
      simp only [Run.bind_outcome, Run.emit_outcome, Run.ofExcept_outcome]
      show ((k.moved before'.length).assemble >>= fun a => Except.ok (some a)) = _
      rw [hmoved]
      rfl
  | .node rule span children, hinside, hshifts, a, h => by
    obtain ⟨s, hspan, hs⟩ := hinside _ .self
    obtain rfl : span = some s := hspan
    have hrule : rule ≠ .ambiguous := by
      rintro rfl
      cases h
    rw [Tree.moved, artifact_node hrule] at h
    obtain ⟨-, -, h⟩ := Run.bind_outcome_ok h
    obtain ⟨parts, hparts, h⟩ := Run.bind_outcome_ok h
    obtain ⟨made, hmade, h⟩ := Run.bind_outcome_ok h
    obtain ⟨-, -, h⟩ := Run.bind_outcome_ok h
    cases h
    have hchildren := artifacts_elsewhere hwhole hwhole' children (fun t ht => hinside.child ht)
      (fun t ht => hshifts.child ht) hparts
    rw [Tree.moved, artifact_node hrule]
    simp only [Run.bind_outcome, Run.emit_outcome, Run.ofExcept_outcome]
    rw [hchildren]
    show ((Tree.node rule (some (s.moved before'.length)) (movedTrees before'.length children)).assemble whole'
      (parts.map _) >>= fun a => Except.ok (some a)) = _
    rw [assemble_elsewhere hwhole hwhole' hs (hshifts _ .self s rfl) hmade]
    rfl

theorem artifacts_elsewhere (hwhole : whole.toList = before ++ (source.toList ++ after))
    (hwhole' : whole'.toList = before' ++ (source.toList ++ after')) :
    ∀ ts : List Tree, (∀ t ∈ ts, t.Inside source) → (∀ t ∈ ts, t.Shifts ρ before.length before'.length) →
    ∀ {as : List Artifact}, (Tree.artifacts whole (movedTrees before.length ts)).outcome = .ok as →
      (Tree.artifacts whole' (movedTrees before'.length ts)).outcome = .ok (as.map (Artifact.moved ρ))
  | [], _, _, as, h => by
    cases h
    rfl
  | t :: rest, hinside, hshifts, as, h => by
    obtain ⟨ht, hrest⟩ := List.forall_mem_cons.1 hinside
    obtain ⟨htshifts, hrestshifts⟩ := List.forall_mem_cons.1 hshifts
    rw [movedTrees, artifacts_cons] at h
    obtain ⟨a, ha, h⟩ := Run.bind_outcome_ok h
    obtain ⟨others, hothers, h⟩ := Run.bind_outcome_ok h
    cases h
    rw [movedTrees, artifacts_cons, Run.bind_of_ok (artifact_elsewhere hwhole hwhole' t ht htshifts ha),
      Run.bind_of_ok (artifacts_elsewhere hwhole hwhole' rest hrest hrestshifts hothers), List.map_append]
    cases a <;> rfl

end

mutual

theorem Tree.moved_zero : ∀ t : Tree, t.moved 0 = t
  | .token ⟨_, _, none⟩ | .token ⟨_, _, some _⟩ => rfl
  | .node _ none children | .node _ (some _) children => by
    rw [Tree.moved, movedTrees_zero children]
    rfl

theorem movedTrees_zero : ∀ ts : List Tree, movedTrees 0 ts = ts
  | [] => rfl
  | t :: rest => by rw [movedTrees, Tree.moved_zero t, movedTrees_zero rest]

end

/-- What a tree leaves, it leaves moved in a longer source. -/
theorem artifact_in_whole (hwhole : whole.toList = before ++ (source.toList ++ after)) (t : Tree)
    (ht : t.Inside source) {a : Option Artifact} (h : (Tree.artifact source t).outcome = .ok a) :
    (Tree.artifact whole (t.moved before.length)).outcome =
      .ok (a.map (Artifact.moved (placesBehind before.length))) := by
  have hsource : source.toList = [] ++ (source.toList ++ []) := (List.append_nil _).symm
  refine artifact_elsewhere hsource hwhole t ht (fun _ _ _ _ => rfl) ?_
  rwa [List.length_nil, Tree.moved_zero]

/-- **Moved trees are made into moved expressions.** -/
theorem make_moved (hwhole : whole.toList = before ++ (source.toList ++ after)) {us : List Tree}
    {es : List Expr} (hinside : ∀ u ∈ us, u.Inside source) (h : Tree.Make source us es) :
    Tree.Make whole (us.map (Tree.moved before.length))
      (es.map (Expr.moved (placesBehind before.length))) := by
  unfold Tree.Make at h ⊢
  rw [List.forall₂_map_left_iff, List.forall₂_map_right_iff]
  induction h with
  | nil => exact .nil
  | cons hu _ ih =>
    obtain ⟨hu', hus⟩ := List.forall_mem_cons.1 hinside
    refine .cons ?_ (ih hus)
    rw [build_eq_artifact] at hu ⊢
    exact artifact_in_whole hwhole _ hu' hu

end Trees

end Criterion

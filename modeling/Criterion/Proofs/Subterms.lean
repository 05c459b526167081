import Criterion.Proofs.Naming
import Criterion.Proofs.Spans

/-!
# What stands in an expression

An expression reads its scope where a name stands in it, and the tested value where `?` does. In the
expression of a source these are the names of its tree, and `?` stands in it only if it stands in the tree.

* `Expr.subterms`: all expressions that stand in an expression.
* `Expr.Within`: what an expression reads by itself is known from some keys.
* `input_of_assemble`: only the rule of `?` makes an expression that reads the tested value.
* `within_of_parse`: **all that the expressions of a source read is known from the keys of its tree**, and
  from that of the tested value if `?` stands in it.
-/

namespace Criterion

namespace Expr

mutual

/-- All expressions that stand in an expression, itself included. -/
def subterms : Expr → List Expr
  | .list items => .list items :: subtermsOfItems items
  | .context entries => .context entries :: subtermsOfEntries entries
  | .unary op a => .unary op a :: subterms a
  | .arithmetic op a b => .arithmetic op a b :: (subterms a ++ subterms b)
  | .relation op a b => .relation op a b :: (subterms a ++ subterms b)
  | .between a low high => .between a low high :: (subterms a ++ (subterms low ++ subterms high))
  | .member a tests => .member a tests :: (subterms a ++ subterms tests)
  | .disjunction a b => .disjunction a b :: (subterms a ++ subterms b)
  | .conjunction a b => .conjunction a b :: (subterms a ++ subterms b)
  | .instanceOf a type => .instanceOf a type :: subterms a
  | .choose condition yes none => .choose condition yes none :: (subterms condition ++ subterms yes)
  | .choose condition yes (some no) =>
    .choose condition yes (some no) :: (subterms condition ++ (subterms yes ++ subterms no))
  | .loop bindings body => .loop bindings body :: (subtermsOfEntries bindings ++ subterms body)
  | .quantified q bindings condition =>
    .quantified q bindings condition :: (subtermsOfEntries bindings ++ subterms condition)
  | .range a b => .range a b :: (subterms a ++ subterms b)
  | .call source callee arguments =>
    .call source callee arguments :: (subterms callee ++ subtermsOfItems arguments)
  | .path target field => .path target field :: subterms target
  | .filter target condition => .filter target condition :: (subterms target ++ subterms condition)
  | .test site op operand => .test site op operand :: subterms operand
  | .interval site includesStart start stop includesStop =>
    .interval site includesStart start stop includesStop :: (subterms start ++ subterms stop)
  | .null => [.null]
  | .boolean b => [.boolean b]
  | .number n => [.number n]
  | .text s => [.text s]
  | .wildcard => [.wildcard]
  | .name n => [.name n]
  | .registered n => [.registered n]
  | .input => [.input]
  | .procedure => [.procedure]

def subtermsOfItems : List Expr → List Expr
  | [] => []
  | e :: rest => subterms e ++ subtermsOfItems rest

def subtermsOfEntries : List (String × Expr) → List Expr
  | [] => []
  | (_, e) :: rest => subterms e ++ subtermsOfEntries rest

end

/-- A name that is read is known from some keys, and so is the key of the tested value. -/
def Within (keys : List String) : Expr → Prop
  | .name n => Known keys n
  | .input => Scope.inputKey ∈ keys
  | _ => True

theorem mem_subtermsOfItems {x : Expr} {es : List Expr} :
    x ∈ subtermsOfItems es ↔ ∃ e ∈ es, x ∈ e.subterms := by
  induction es with
  | nil => simp [subtermsOfItems]
  | cons e rest ih => simp [subtermsOfItems, ih]

theorem mem_subtermsOfEntries {x : Expr} {bs : List (String × Expr)} :
    x ∈ subtermsOfEntries bs ↔ ∃ b ∈ bs, x ∈ b.2.subterms := by
  induction bs with
  | nil => simp [subtermsOfEntries]
  | cons b rest ih => simp [subtermsOfEntries, ih]

mutual

/-- A name that stands in an expression is one of its names. -/
theorem mem_names_of_subterm {n : String} : ∀ e : Expr, .name n ∈ e.subterms → n ∈ e.names
  | .name m, h => by
    obtain rfl : n = m := by simpa [subterms] using h
    exact List.mem_singleton_self n
  | .null, h | .boolean _, h | .number _, h | .text _, h | .wildcard, h | .registered _, h | .input, h
  | .procedure, h => by simp [subterms] at h
  | .list items, h => by
    have hitems := (List.mem_cons.1 h).resolve_left (by simp)
    exact mem_names_of_subterm_items items hitems
  | .context entries, h => by
    have hentries := (List.mem_cons.1 h).resolve_left (by simp)
    exact mem_names_of_subterm_entries entries hentries
  | .unary _ a, h | .instanceOf a _, h | .path a _, h | .test _ _ a, h => by
    have ha := (List.mem_cons.1 h).resolve_left (by simp)
    exact mem_names_of_subterm a ha
  | .arithmetic _ a b, h | .relation _ a b, h | .member a b, h | .disjunction a b, h
  | .conjunction a b, h | .range a b, h | .filter a b, h | .interval _ _ a b _, h
  | .choose a b none, h => by
    have hab := List.mem_append.1 ((List.mem_cons.1 h).resolve_left (by simp))
    exact List.mem_append.2 (hab.imp (mem_names_of_subterm a) (mem_names_of_subterm b))
  | .between a b c, h | .choose a b (some c), h => by
    have habc := List.mem_append.1 ((List.mem_cons.1 h).resolve_left (by simp))
    rcases habc with ha | hbc
    · exact List.mem_append_left _ (List.mem_append_left _ (mem_names_of_subterm a ha))
    · rcases List.mem_append.1 hbc with hb | hc
      · exact List.mem_append_left _ (List.mem_append_right _ (mem_names_of_subterm b hb))
      · exact List.mem_append_right _ (mem_names_of_subterm c hc)
  | .loop bindings body, h | .quantified _ bindings body, h => by
    have hparts := List.mem_append.1 ((List.mem_cons.1 h).resolve_left (by simp))
    exact List.mem_append.2
      (hparts.imp (mem_names_of_subterm_entries bindings) (mem_names_of_subterm body))
  | .call _ callee arguments, h => by
    have hparts := List.mem_append.1 ((List.mem_cons.1 h).resolve_left (by simp))
    exact List.mem_append.2
      (hparts.imp (mem_names_of_subterm callee) (mem_names_of_subterm_items arguments))

theorem mem_names_of_subterm_items {n : String} : ∀ es : List Expr,
    .name n ∈ subtermsOfItems es → n ∈ namesOfItems es
  | [], h => absurd h List.not_mem_nil
  | e :: rest, h => List.mem_append.2
    ((List.mem_append.1 h).imp (mem_names_of_subterm e) (mem_names_of_subterm_items rest))

theorem mem_names_of_subterm_entries {n : String} : ∀ bs : List (String × Expr),
    .name n ∈ subtermsOfEntries bs → n ∈ namesOfEntries bs
  | [], h => absurd h List.not_mem_nil
  | (_, e) :: rest, h => List.mem_append.2
    ((List.mem_append.1 h).imp (mem_names_of_subterm e) (mem_names_of_subterm_entries rest))

end

end Expr

/-! ## Artifacts -/

/-- The expressions that stand in an artifact. -/
def Artifact.subterms : Artifact → List Expr
  | .expr e => e.subterms
  | .entry _ value => value.subterms
  | .binding _ domain => domain.subterms
  | .bindings bs => Expr.subtermsOfEntries bs
  | .arguments es => Expr.subtermsOfItems es
  | .tests ts => Expr.subtermsOfItems ts.tests
  | .text _ | .arithmetic _ | .relation _ | .quantifier _ => []

section Parts

variable {a b : Artifact} {as : List Artifact} {e x : Expr}

theorem subterms_of_operand (hx : x ≠ .procedure) (h : a.operand? = some e) (he : x ∈ e.subterms) :
    x ∈ a.subterms := by
  cases a <;> cases h
  · exact he
  all_goals exact absurd (List.mem_singleton.1 he) hx

theorem subterms_of_operands (hx : x ≠ .procedure) {es : List Expr}
    (h : as.mapM Artifact.operand? = some es) (he : x ∈ Expr.subtermsOfItems es) :
    ∃ a ∈ as, x ∈ a.subterms := by
  obtain ⟨e, hmem, he⟩ := Expr.mem_subtermsOfItems.1 he
  obtain ⟨a, ha, hoperand⟩ := mem_of_mapM h hmem
  exact ⟨a, ha, subterms_of_operand hx hoperand he⟩

theorem subterms_of_list (hx : x ≠ .procedure) (h : (do return .list (← as.mapM Artifact.operand?)) = some e)
    (he : x ∈ e.subterms) : e = x ∨ ∃ a ∈ as, x ∈ a.subterms := by
  obtain ⟨es, hes, h⟩ := Option.bind_eq_some_iff.1 h
  cases h
  exact (List.mem_cons.1 he).imp Eq.symm (subterms_of_operands hx hes)

theorem subterms_of_context (h : (do return .context (← as.mapM Artifact.entry?)) = some e)
    (he : x ∈ e.subterms) : e = x ∨ ∃ a ∈ as, x ∈ a.subterms := by
  obtain ⟨es, hes, h⟩ := Option.bind_eq_some_iff.1 h
  cases h
  refine (List.mem_cons.1 he).imp Eq.symm fun he => ?_
  obtain ⟨⟨key, value⟩, hmem, he⟩ := Expr.mem_subtermsOfEntries.1 he
  obtain ⟨a, ha, hentry⟩ := mem_of_mapM hes hmem
  refine ⟨a, ha, ?_⟩
  cases a <;> cases hentry
  exact he

theorem subterms_of_arguments (hx : x ≠ .procedure) (h : (as.mapM Artifact.operand?).map .arguments = some b)
    (hb : x ∈ b.subterms) : ∃ a ∈ as, x ∈ a.subterms := by
  obtain ⟨es, hes, rfl⟩ := Option.map_eq_some_iff.1 h
  exact subterms_of_operands hx hes hb

theorem subterms_of_bindings (h : (as.mapM Artifact.binding?).map .bindings = some b)
    (hb : x ∈ b.subterms) : ∃ a ∈ as, x ∈ a.subterms := by
  obtain ⟨bs, hbs, rfl⟩ := Option.map_eq_some_iff.1 h
  obtain ⟨⟨name, domain⟩, hmem, hb⟩ := Expr.mem_subtermsOfEntries.1 hb
  obtain ⟨a, ha, hbinding⟩ := mem_of_mapM hbs hmem
  refine ⟨a, ha, ?_⟩
  cases a <;> cases hbinding
  exact hb

/-- The tests of a negation stand between its parentheses. -/
theorem subterms_of_tests (hx : x ≠ .procedure) (h : (Rule.unaryTests? as).map .tests = some b)
    (hb : x ∈ b.subterms) : ∃ a ∈ as, x ∈ a.subterms := by
  obtain ⟨ts, hts, rfl⟩ := Option.map_eq_some_iff.1 h
  unfold Rule.unaryTests? at hts
  split at hts
  · obtain ⟨es, hes, h⟩ := Option.bind_eq_some_iff.1 hts
    cases h
    obtain ⟨a, ha, hb⟩ := subterms_of_operands hx hes hb
    exact ⟨a, List.mem_of_mem_drop (List.mem_of_mem_dropLast ha), hb⟩
  · obtain ⟨es, hes, h⟩ := Option.bind_eq_some_iff.1 hts
    cases h
    exact subterms_of_operands hx hes hb

theorem subterms_of_comparison (hx : x ≠ .procedure) (h : Rule.comparison? as = some e)
    (he : x ∈ e.subterms) : e = x ∨ ∃ a ∈ as, x ∈ a.subterms := by
  unfold Rule.comparison? at h
  split at h
  all_goals
    simp [Option.bind_eq_some_iff] at h
    try simp only [List.exists_mem_cons_iff]
  all_goals grind [Expr.subterms, → subterms_of_operand]

theorem subterms_of_expr {site : ℕ} {text : String} {rule : Rule} (hx : x ≠ .procedure)
    (hregistered : ∀ n, x ≠ .registered n) (h : (rule.expr? site text as).map .expr = some b)
    (hb : x ∈ b.subterms) : b = .expr x ∨ ∃ a ∈ as, x ∈ a.subterms := by
  obtain ⟨e, he, rfl⟩ := Option.map_eq_some_iff.1 h
  have hsub : x ∈ e.subterms := hb
  suffices hparts : e = x ∨ ∃ a ∈ as, x ∈ a.subterms from hparts.imp_left (congrArg Artifact.expr)
  unfold Rule.expr? at he
  split at he
  all_goals first
    | exact subterms_of_list hx he hsub
    | exact subterms_of_context he hsub
    | exact subterms_of_comparison hx he hsub
    | skip
  -- the other rules take a fixed number of parts apart
  all_goals
    simp [Option.bind_eq_some_iff] at he
    try simp only [List.exists_mem_cons_iff]
  all_goals grind [Expr.subterms, Artifact.subterms, → subterms_of_operand]

theorem subterms_of_artifact {site : ℕ} {text : String} {rule : Rule} (hx : x ≠ .procedure)
    (hregistered : ∀ n, x ≠ .registered n) (h : rule.artifact? site text as = some b)
    (hb : x ∈ b.subterms) : b = .expr x ∨ ∃ a ∈ as, x ∈ a.subterms := by
  unfold Rule.artifact? at h
  split at h
  all_goals first
    | exact .inr (subterms_of_tests hx h hb)
    | exact .inr (subterms_of_arguments hx h hb)
    | exact .inr (subterms_of_bindings h hb)
    | exact subterms_of_expr hx hregistered h hb
    | skip
  all_goals
    simp [Option.bind_eq_some_iff] at h
    try simp only [List.exists_mem_cons_iff]
  all_goals grind [Artifact.subterms, → subterms_of_operand]

/-- **What stands in the artifact of a rule stands in the artifacts of its parts**, unless the rule makes it
itself. -/
theorem subterms_of_assemble {site : ℕ} {text : String} {rule : Rule} (hx : x ≠ .procedure)
    (hregistered : ∀ n, x ≠ .registered n) (h : rule.assemble site text as = .ok b)
    (hb : x ∈ b.subterms) : b = .expr x ∨ ∃ a ∈ as, x ∈ a.subterms :=
  subterms_of_artifact hx hregistered (Nonterminal.artifact_of_assemble h) hb

/-- Only one rule makes an expression that reads the tested value. -/
theorem input_of_assemble {site : ℕ} {text : String} {rule : Rule}
    (h : rule.assemble site text as = .ok (.expr .input)) :
    rule = .inputValue ∨ Artifact.expr .input ∈ as := by
  have hexpr : (rule.expr? site text as).map Artifact.expr = some (.expr .input) → rule = .inputValue := by
    intro h
    obtain ⟨e, he, heq⟩ := Option.map_eq_some_iff.1 h
    cases heq
    unfold Rule.expr? at he
    split at he
    all_goals first
      | rfl
      | simp [Option.bind_eq_some_iff] at he
      | unfold Rule.comparison? at he; split at he
    all_goals simp [Option.bind_eq_some_iff] at he
  have hartifact := Nonterminal.artifact_of_assemble h
  unfold Rule.artifact? at hartifact
  split at hartifact
  all_goals first
    | exact .inl (hexpr hartifact)
    | simp [Option.bind_eq_some_iff] at hartifact
  all_goals exact .inr (hartifact ▸ List.mem_cons_self)

/-- A token stands for a literal at most. -/
theorem input_of_token {k : Token} (h : k.assemble = .ok a) : .input ∉ a.subterms := by
  unfold Token.assemble at h
  split at h
  · obtain ⟨e, he, rfl⟩ : ∃ e, numberLiteral k.text = .ok e ∧ a = .expr e := by
      cases hliteral : numberLiteral k.text with
      | error e =>
        rw [hliteral] at h
        cases h
      | ok e =>
        rw [hliteral] at h
        cases h
        exact ⟨e, rfl, rfl⟩
    unfold numberLiteral at he
    dsimp only at he
    split at he <;> cases he
    simp [Artifact.subterms, Expr.subterms]
  all_goals first
    | cases h; simp [Artifact.subterms, Expr.subterms, stringLiteral]
    | split at h <;> cases h; simp [Artifact.subterms]

end Parts

/-! ## Trees -/

/-- The tested value is named in a tree. -/
def Tree.Mentions (t : Tree) : Prop := ∃ span children, t.IsPart (.node .inputValue span children)

/-- The parts of a child are parts of its node. -/
theorem Tree.IsPart.of_child {t u : Tree} {children : List Tree} (h : t.IsPart u) (ht : t ∈ children)
    (rule : Rule) (span : Option Span) : (Tree.node rule span children).IsPart u := by
  induction h with
  | self => exact .child .self ht
  | child _ hu ih => exact .child ih hu

/-- A part of a tree is the tree itself or a part of one of its children. -/
theorem Tree.IsPart.eq_or_child {t u : Tree} (h : t.IsPart u) : u = t ∨ ∃ c ∈ t.children, c.IsPart u := by
  induction h with
  | self => exact .inl rfl
  | child _ hu ih =>
    rcases ih with rfl | ⟨c, hc, hpart⟩
    · exact .inr ⟨_, hu, .self⟩
    · exact .inr ⟨c, hc, .child hpart hu⟩

@[simp] theorem mentions_token (k : Token) : ¬ (Tree.token k).Mentions := by
  rintro ⟨span, children, h⟩
  rcases h.eq_or_child with h | ⟨c, hc, -⟩
  · cases h
  · cases hc

@[simp] theorem mentions_node (rule : Rule) (span : Option Span) (children : List Tree) :
    (Tree.node rule span children).Mentions ↔ rule = .inputValue ∨ ∃ c ∈ children, c.Mentions := by
  constructor
  · rintro ⟨span', children', h⟩
    rcases h.eq_or_child with h | ⟨c, hc, hpart⟩
    · cases h
      exact .inl rfl
    · exact .inr ⟨c, hc, span', children', hpart⟩
  · rintro (rfl | ⟨c, hc, span', children', hpart⟩)
    · exact ⟨span, children, .self⟩
    · exact ⟨span', children', hpart.of_child hc rule span⟩

section Trees

variable {source : String} {ts us : List Tree}

/-- An artifact reads the tested value only if one of some trees names it. -/
def MentionedIn (ts : List Tree) (a : Artifact) : Prop := .input ∈ a.subterms → ∃ t ∈ ts, t.Mentions

theorem mentionedIn_append (ts us : List Tree) (a : Artifact) (h : MentionedIn ts a ∨ MentionedIn us a) :
    MentionedIn (ts ++ us) a := by
  intro ha
  rcases h with h | h
  · obtain ⟨t, ht, hmentions⟩ := h ha
    exact ⟨t, List.mem_append_left _ ht, hmentions⟩
  · obtain ⟨t, ht, hmentions⟩ := h ha
    exact ⟨t, List.mem_append_right _ ht, hmentions⟩

theorem mentioned_node {rule : Rule} (hrule : rule ≠ .ambiguous) (h : EachMade MentionedIn source ts)
    (span : Option Span) : EachMade MentionedIn source [.node rule span ts] := by
  intro as has a ha hinput
  refine ⟨_, List.mem_singleton_self _, ?_⟩
  obtain ⟨parts, made, hparts, hmade, rfl⟩ := assemble_of_artifacts hrule has
  obtain rfl := List.mem_singleton.1 ha
  have hfrom : rule = .inputValue ∨ ∃ b ∈ parts, .input ∈ b.subterms := by
    rcases subterms_of_assemble (by simp) (by simp) hmade hinput with rfl | hpart
    · refine (input_of_assemble hmade).imp_right fun hmem => ⟨_, hmem, ?_⟩
      exact List.mem_singleton_self _
    · exact .inr hpart
  rw [mentions_node]
  exact hfrom.imp_right fun ⟨b, hb, hinput⟩ => h parts hparts b hb hinput

theorem Derives.mentioned {keeps : Bool} {body : List Symbol} {w : List Lexeme} (h : Derives keeps body w ts)
    (hw : ∀ l ∈ w, l.Spelled) : EachMade MentionedIn source ts := by
  refine h.eachMade mentionedIn_append (fun l hl => ?_) (fun n p w ts rule hp hr _ _ hts => ?_) hw
  · exact .token hl.trivia fun a ha hinput => absurd hinput (input_of_token ha)
  · refine mentioned_node ?_ hts _
    rintro rfl
    exact n.node_ne_ambiguous p hp hr

end Trees

theorem Expr.within_of_names {keys : List String} {e : Expr} (hnames : ∀ n ∈ e.names, Known keys n)
    (hinput : .input ∈ e.subterms → Scope.inputKey ∈ keys) : ∀ x ∈ e.subterms, x.Within keys := by
  intro x hx
  cases x with
  | name n => exact hnames n (mem_names_of_subterm e hx)
  | input => exact hinput hx
  | _ => trivial

/-- **All that the tests of a source read is known from the keys of its tree**, with that of the tested
value only if it is named there. -/
theorem within_of_parse {unary : Bool} {source : String} {t : Tree} (h : parse unary source = .ok t)
    {ts : UnaryTests} (hbuild : (t.build source).outcome = .ok (some (.tests ts))) {keys : List String}
    (hkeys : ∀ k ∈ t.keys, k ∈ keys) (hinput : t.Mentions → Scope.inputKey ∈ keys) :
    ∀ e ∈ ts.tests, ∀ x ∈ e.subterms, x.Within keys := by
  intro e he
  have hnames : ∀ n ∈ e.names, Known keys n := by
    intro n hn
    have hknown : Known t.keys n := names_of_parse h hbuild n (mem_namesOfItems.2 ⟨e, he, hn⟩)
    exact hknown.mono hkeys
  refine Expr.within_of_names hnames fun hreads => hinput ?_
  obtain ⟨ls, htokens, ht⟩ := tells_of_parse h
  have hmade : EachMade MentionedIn source [t] :=
    Derives.mentioned (ht.derives_last : Derives false _ _ _) htokens.spelled
  have hitems : .input ∈ Expr.subtermsOfItems ts.tests := Expr.mem_subtermsOfItems.2 ⟨e, he, hreads⟩
  obtain ⟨u, hu, hmentions⟩ := hmade _ (artifacts_of_build hbuild) _ (List.mem_singleton_self _) hitems
  rwa [List.mem_singleton.1 hu] at hmentions

end Criterion

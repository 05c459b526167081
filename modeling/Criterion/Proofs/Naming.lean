import Criterion.Proofs.Agreement
import Criterion.Proofs.Building

/-!
# The names of a source

The names that stand in the expression of a source stand in its tree: they are its qualified names,
written with dots, and its builtin names of several words, with single blanks.

* `Tree.keys`: the names of a tree, with the first segments of those that have dots.
* `Artifact.names`: the names that stand in an artifact.
* `names_of_assemble`: the rules of names apart, what a rule makes has the names of its parts.
* `Derives.namesKnown`: **the artifacts of derived trees have no names but those of their trees.**
* `names_of_parse`: so it is for the tree of a source.
* `inputKey_notMem_keys`: the key of the tested value is none of them.
-/

namespace Criterion

/-! ## The names of a tree -/

mutual

/-- The keys under which a tree looks up its names: each qualified name with dots between its
segments, and its first segment; each builtin name of several words with single blanks. -/
def Tree.keys : Tree → List String
  | .token k =>
    if k.kind = .specialName ∨ k.kind = .dateAndTime then [Text.normalizeBlanks k.text] else []
  | .node .qualifiedName _ children =>
    let segments := (Tree.leavesOf children).map (·.text)
    [".".intercalate segments, segments.headD ""]
  | .node _ _ children => Tree.keysOf children

/-- The keys of some trees. -/
def Tree.keysOf : List Tree → List String
  | [] => []
  | t :: rest => Tree.keys t ++ Tree.keysOf rest

end

@[simp] theorem keysOf_nil : Tree.keysOf [] = [] := rfl

@[simp] theorem keysOf_cons (t : Tree) (rest : List Tree) :
    Tree.keysOf (t :: rest) = t.keys ++ Tree.keysOf rest := rfl

theorem keysOf_append (ts us : List Tree) :
    Tree.keysOf (ts ++ us) = Tree.keysOf ts ++ Tree.keysOf us := by
  induction ts with
  | nil => rfl
  | cons t ts ih => rw [List.cons_append, keysOf_cons, keysOf_cons, ih, List.append_assoc]

theorem keys_node {rule : Rule} (h : rule ≠ .qualifiedName) (span : Option Span)
    (children : List Tree) : (Tree.node rule span children).keys = Tree.keysOf children := by
  cases rule <;> first | exact absurd rfl h | rfl

/-- A name that is looked up under some keys, as a whole and by its part before the first dot. -/
def Known (keys : List String) (n : String) : Prop := n ∈ keys ∧ (Scope.segments n).1 ∈ keys

theorem Known.mono {keys more : List String} {n : String} (h : Known keys n)
    (hsub : ∀ k ∈ keys, k ∈ more) : Known more n :=
  ⟨hsub _ h.1, hsub _ h.2⟩

/-! ## The names of an artifact -/

/-- The names that stand in an artifact. -/
def Artifact.names : Artifact → List String
  | .expr e => e.names
  | .entry _ value => value.names
  | .binding _ domain => domain.names
  | .bindings bs => Expr.namesOfEntries bs
  | .arguments es => Expr.namesOfItems es
  | .tests ts => Expr.namesOfItems ts.tests
  | .text _ | .arithmetic _ | .relation _ | .quantifier _ => []

section Names

variable {a : Artifact} {as : List Artifact} {n : String}

theorem names_of_operand {e : Expr} (h : a.operand? = some e) (hn : n ∈ e.names) : n ∈ a.names := by
  cases a <;> cases h
  · exact hn
  all_goals exact absurd hn List.not_mem_nil

theorem mem_namesOfItems {es : List Expr} :
    n ∈ Expr.namesOfItems es ↔ ∃ e ∈ es, n ∈ e.names := by
  induction es with
  | nil => simp [Expr.namesOfItems]
  | cons e rest ih => simp [Expr.namesOfItems, ih]

theorem mem_namesOfEntries {bs : List (String × Expr)} :
    n ∈ Expr.namesOfEntries bs ↔ ∃ b ∈ bs, n ∈ b.2.names := by
  induction bs with
  | nil => simp [Expr.namesOfEntries]
  | cons b rest ih => simp [Expr.namesOfEntries, ih]

/-- What is collected from some artifacts comes from one of them. -/
theorem mem_of_mapM {β : Type} {f : Artifact → Option β} {bs : List β} {b : β}
    (h : as.mapM f = some bs) (hb : b ∈ bs) : ∃ a ∈ as, f a = some b := by
  induction as generalizing bs with
  | nil => cases h; exact absurd hb List.not_mem_nil
  | cons a as ih =>
    rw [List.mapM_cons] at h
    obtain ⟨c, hc, h⟩ := Option.bind_eq_some_iff.1 h
    obtain ⟨rest, hrest, h⟩ := Option.bind_eq_some_iff.1 h
    cases h
    rcases List.mem_cons.1 hb with rfl | hb
    · exact ⟨a, List.mem_cons_self, hc⟩
    · obtain ⟨d, hd, hfd⟩ := ih hrest hb
      exact ⟨d, List.mem_cons_of_mem _ hd, hfd⟩

theorem names_of_operands {es : List Expr} (h : as.mapM Artifact.operand? = some es)
    (hn : n ∈ Expr.namesOfItems es) : ∃ a ∈ as, n ∈ a.names := by
  obtain ⟨e, he, hn⟩ := mem_namesOfItems.1 hn
  obtain ⟨a, ha, hoperand⟩ := mem_of_mapM h he
  exact ⟨a, ha, names_of_operand hoperand hn⟩

theorem names_of_list {e : Expr} (h : (do return .list (← as.mapM Artifact.operand?)) = some e)
    (hn : n ∈ e.names) : ∃ a ∈ as, n ∈ a.names := by
  obtain ⟨es, hes, h⟩ := Option.bind_eq_some_iff.1 h
  cases h
  exact names_of_operands hes hn

theorem names_of_arguments {b : Artifact} (h : (as.mapM Artifact.operand?).map .arguments = some b)
    (hn : n ∈ b.names) : ∃ a ∈ as, n ∈ a.names := by
  obtain ⟨es, hes, rfl⟩ := Option.map_eq_some_iff.1 h
  exact names_of_operands hes hn

theorem names_of_entry {key : String} {e : Expr} (h : a.entry? = some (key, e)) :
    a.names = e.names := by
  cases a <;> cases h
  rfl

theorem names_of_context {e : Expr} (h : (do return .context (← as.mapM Artifact.entry?)) = some e)
    (hn : n ∈ e.names) : ∃ a ∈ as, n ∈ a.names := by
  obtain ⟨es, hes, h⟩ := Option.bind_eq_some_iff.1 h
  cases h
  obtain ⟨⟨key, e⟩, he, hn⟩ := mem_namesOfEntries.1 hn
  obtain ⟨a, ha, hentry⟩ := mem_of_mapM hes he
  exact ⟨a, ha, names_of_entry hentry ▸ hn⟩

theorem names_of_binding {name : String} {e : Expr} (h : a.binding? = some (name, e)) :
    a.names = e.names := by
  cases a <;> cases h
  rfl

theorem names_of_bindings {b : Artifact} (h : (as.mapM Artifact.binding?).map .bindings = some b)
    (hn : n ∈ b.names) : ∃ a ∈ as, n ∈ a.names := by
  obtain ⟨bs, hbs, rfl⟩ := Option.map_eq_some_iff.1 h
  obtain ⟨⟨name, e⟩, he, hn⟩ := mem_namesOfEntries.1 hn
  obtain ⟨a, ha, hbinding⟩ := mem_of_mapM hbs he
  exact ⟨a, ha, names_of_binding hbinding ▸ hn⟩

/-- The tests of a negation stand between its parentheses. -/
theorem names_of_tests {b : Artifact} (h : (Rule.unaryTests? as).map .tests = some b)
    (hn : n ∈ b.names) : ∃ a ∈ as, n ∈ a.names := by
  obtain ⟨ts, hts, rfl⟩ := Option.map_eq_some_iff.1 h
  unfold Rule.unaryTests? at hts
  split at hts
  · obtain ⟨es, hes, h⟩ := Option.bind_eq_some_iff.1 hts
    cases h
    obtain ⟨a, ha, hn⟩ := names_of_operands hes hn
    exact ⟨a, List.mem_of_mem_drop (List.mem_of_mem_dropLast ha), hn⟩
  · obtain ⟨es, hes, h⟩ := Option.bind_eq_some_iff.1 hts
    cases h
    exact names_of_operands hes hn

theorem names_of_comparison {e : Expr} (h : Rule.comparison? as = some e) (hn : n ∈ e.names) :
    ∃ a ∈ as, n ∈ a.names := by
  unfold Rule.comparison? at h
  split at h
  all_goals
    simp [Option.bind_eq_some_iff] at h
    try simp only [List.exists_mem_cons_iff]
  all_goals grind [Expr.names, → names_of_operand]

/-- An expression that a rule makes of its parts has the names of its parts, unless it is itself a
name. -/
theorem names_of_expr {site : ℕ} {text : String} {rule : Rule} {b : Artifact}
    (h : (rule.expr? site text as).map .expr = some b) (hname : rule ≠ .qualifiedName)
    (hspecial : rule ≠ .specialFunctionName) (hn : n ∈ b.names) : ∃ a ∈ as, n ∈ a.names := by
  obtain ⟨e, he, rfl⟩ := Option.map_eq_some_iff.1 h
  unfold Rule.expr? at he
  split at he
  all_goals first
    | exact names_of_list he hn
    | exact names_of_context he hn
    | exact names_of_comparison he hn
    | skip
  -- the other rules take a fixed number of parts apart
  all_goals
    simp [Option.bind_eq_some_iff] at he
    try simp only [List.exists_mem_cons_iff]
  all_goals grind [Expr.names, Artifact.names, → names_of_operand]

theorem names_of_artifact {site : ℕ} {text : String} {rule : Rule} {b : Artifact}
    (h : rule.artifact? site text as = some b) (hname : rule ≠ .qualifiedName)
    (hspecial : rule ≠ .specialFunctionName) (hn : n ∈ b.names) : ∃ a ∈ as, n ∈ a.names := by
  unfold Rule.artifact? at h
  split at h
  all_goals first
    | exact names_of_tests h hn
    | exact names_of_arguments h hn
    | exact names_of_bindings h hn
    | exact names_of_expr h hname hspecial hn
    | skip
  all_goals
    simp [Option.bind_eq_some_iff] at h
    try simp only [List.exists_mem_cons_iff]
  all_goals grind [Artifact.names, → names_of_operand]

/-- What a rule makes has the names of its parts, unless it is itself a name. -/
theorem names_of_assemble {site : ℕ} {text : String} {rule : Rule} {b : Artifact}
    (h : rule.assemble site text as = .ok b) (hname : rule ≠ .qualifiedName)
    (hspecial : rule ≠ .specialFunctionName) (hn : n ∈ b.names) : ∃ a ∈ as, n ∈ a.names :=
  names_of_artifact (Nonterminal.artifact_of_assemble h) hname hspecial hn

theorem names_of_number {s : String} {e : Expr} (h : numberLiteral s = .ok e) : e.names = [] := by
  unfold numberLiteral at h
  dsimp only at h
  split at h
  · cases h
    rfl
  · cases h

/-- A token has no names by itself. -/
theorem names_of_token {k : Token} (h : k.assemble = .ok a) : a.names = [] := by
  unfold Token.assemble at h
  split at h
  · cases hliteral : numberLiteral k.text with
    | error e =>
      rw [hliteral] at h
      cases h
    | ok e =>
      rw [hliteral] at h
      cases h
      exact names_of_number hliteral
  all_goals first
    | cases h; rfl
    | split at h <;> cases h; rfl

end Names

/-! ## Names with dots -/

/-- A text without dots is the first part of any text that a dot follows it in. -/
theorem split_dot {v : List Char} (h : '.' ∉ v) (w : List Char) :
    Scope.segments.split (v ++ '.' :: w) = v :: Scope.segments.split w := by
  induction v with
  | nil => rfl
  | cons c v ih =>
    rw [List.mem_cons, not_or] at h
    obtain ⟨hc, hv⟩ := h
    rw [List.cons_append, Scope.segments.split, if_neg (Ne.symm hc), ih hv]

theorem split_undotted {v : List Char} (h : '.' ∉ v) : Scope.segments.split v = [v] := by
  induction v with
  | nil => rfl
  | cons c v ih =>
    rw [List.mem_cons, not_or] at h
    obtain ⟨hc, hv⟩ := h
    rw [Scope.segments.split, if_neg (Ne.symm hc), ih hv]

theorem segments_undotted {s : String} (h : '.' ∉ s.toList) : Scope.segments s = (s, []) := by
  unfold Scope.segments
  rw [split_undotted h]
  exact congrArg (·, []) String.ofList_toList

theorem toList_intercalate_dot (s part : String) (rest : List String) :
    (".".intercalate (s :: part :: rest)).toList =
      s.toList ++ '.' :: (".".intercalate (part :: rest)).toList := by
  rw [String.intercalate_cons_cons]
  simp

/-- The first segment of a name. -/
theorem segments_intercalate {s : String} (h : '.' ∉ s.toList) (rest : List String) :
    (Scope.segments (".".intercalate (s :: rest))).1 = s := by
  cases rest with
  | nil => rw [String.intercalate_singleton, segments_undotted h]
  | cons part rest =>
    unfold Scope.segments
    rw [toList_intercalate_dot, split_dot h]
    exact String.ofList_toList

/-- The words of a text have no characters that it does not have. -/
theorem mem_of_words {cs word : List Char} {c : Char} : ∀ {read : List Char},
    word ∈ Text.words.go read cs → c ∈ word → c ∈ read ∨ c ∈ cs := by
  induction cs with
  | nil =>
    intro read hword hc
    unfold Text.words.go at hword
    split at hword
    · exact absurd hword List.not_mem_nil
    · rw [List.mem_singleton.1 hword, List.mem_reverse] at hc
      exact .inl hc
  | cons d rest ih =>
    intro read hword hc
    unfold Text.words.go at hword
    split at hword
    · split at hword
      · exact .inr ((ih hword hc).elim (fun h => absurd h List.not_mem_nil)
          (List.mem_cons_of_mem _))
      · rcases List.mem_cons.1 hword with rfl | hword
        · exact .inl (List.mem_reverse.1 hc)
        · exact .inr ((ih hword hc).elim (fun h => absurd h List.not_mem_nil)
            (List.mem_cons_of_mem _))
    · rcases ih hword hc with hread | hrest
      · rcases List.mem_cons.1 hread with rfl | hread
        · exact .inr List.mem_cons_self
        · exact .inl hread
      · exact .inr (List.mem_cons_of_mem _ hrest)

theorem mem_of_intercalate {words : List (List Char)} {c : Char}
    (h : c ∈ [' '].intercalate words) : c = ' ' ∨ ∃ word ∈ words, c ∈ word := by
  induction words with
  | nil => exact absurd h List.not_mem_nil
  | cons word rest ih =>
    cases rest with
    | nil =>
      rw [List.intercalate_singleton] at h
      exact .inr ⟨word, List.mem_cons_self, h⟩
    | cons next rest =>
      rw [List.intercalate_cons_cons, List.mem_append, List.mem_append] at h
      rcases h with (h | h) | h
      · exact .inr ⟨word, List.mem_cons_self, h⟩
      · exact .inl (List.mem_singleton.1 h)
      · rcases ih h with h | ⟨other, hother, hc⟩
        · exact .inl h
        · exact .inr ⟨other, List.mem_cons_of_mem _ hother, hc⟩

/-- A text lacks what it lacked before its blanks were made single. -/
theorem normalizeBlanks_lacks {s : String} {d : Char} (hd : d ≠ ' ') (h : d ∉ s.toList) :
    d ∉ (Text.normalizeBlanks s).toList := by
  intro hmem
  rw [Text.normalizeBlanks, String.toList_ofList] at hmem
  rcases mem_of_intercalate hmem with hblank | ⟨word, hword, hmem⟩
  · exact hd hblank
  · rcases mem_of_words hword hmem with hread | hmem
    · exact absurd hread List.not_mem_nil
    · exact h hmem

/-! ## Trees of derivations -/

/-- Whatever some trees are built into, its names are known from the keys of the trees. -/
def NamesKnown (source : String) (ts : List Tree) : Prop :=
  ∀ as, (Tree.artifacts source ts).outcome = .ok as → ∀ a ∈ as, ∀ n ∈ a.names,
    Known (Tree.keysOf ts) n

section Trees

variable {source : String} {ts us : List Tree}

/-- All names in an artifact are known from the keys of some trees. -/
def NamedIn (ts : List Tree) (a : Artifact) : Prop := ∀ n ∈ a.names, Known (Tree.keysOf ts) n

theorem namedIn_append (ts us : List Tree) (a : Artifact) (h : NamedIn ts a ∨ NamedIn us a) :
    NamedIn (ts ++ us) a := by
  intro n hn
  rw [keysOf_append]
  rcases h with h | h
  · exact (h n hn).mono fun _ => List.mem_append_left _
  · exact (h n hn).mono fun _ => List.mem_append_right _

theorem namesKnown_token {k : Token} (hk : k.kind.isTrivia = false) :
    NamesKnown source [.token k] := by
  have htoken : EachMade NamedIn source [.token k] := by
    refine .token hk fun a ha n hn => ?_
    rw [names_of_token ha] at hn
    exact absurd hn List.not_mem_nil
  exact htoken

/-- What a node is made of, if it is built. -/
theorem assemble_of_artifacts {rule : Rule} (hrule : rule ≠ .ambiguous) {span : Option Span}
    {as : List Artifact}
    (h : (Tree.artifacts source [.node rule span ts]).outcome = .ok as) :
    ∃ parts a, (Tree.artifacts source ts).outcome = .ok parts ∧
      rule.assemble (Tree.node rule span ts).site ((Tree.node rule span ts).text source) parts = .ok a ∧
      as = [a] := by
  rw [artifacts_node hrule] at h
  cases hparts : (Tree.artifacts source ts).outcome with
  | error e =>
    rw [hparts] at h
    cases h
  | ok parts =>
    rw [hparts] at h
    change (do return [← (Tree.node rule span ts).assemble source parts]) = _ at h
    cases ha : (Tree.node rule span ts).assemble source parts with
    | error e =>
      rw [ha] at h
      cases h
    | ok a =>
      rw [ha] at h
      cases h
      exact ⟨parts, a, rfl, ha, rfl⟩

theorem NamesKnown.node {rule : Rule} (hrule : rule ≠ .ambiguous) (hname : rule ≠ .qualifiedName)
    (hspecial : rule ≠ .specialFunctionName) (h : NamesKnown source ts) (span : Option Span) :
    NamesKnown source [.node rule span ts] := by
  intro as has a ha n hn
  obtain ⟨parts, made, hparts, hmade, rfl⟩ := assemble_of_artifacts hrule has
  obtain rfl := List.mem_singleton.1 ha
  obtain ⟨b, hb, hn⟩ := names_of_assemble hmade hname hspecial hn
  rw [keysOf_cons, keys_node hname, keysOf_nil, List.append_nil]
  exact h parts hparts b hb n hn

/-! ### Nodes of names -/

open Nonterminal (word)

/-- The segments of a name are identifiers. -/
theorem Derives.identifiers {keeps : Bool} {body : List Symbol} {w : List Lexeme}
    (h : Derives keeps body w ts) (hkeeps : keeps = false)
    (hbody : ∀ s ∈ body, s = word .dot ∨ s = .named [.identifier] ∨
      s = .many [word .dot, .named [.identifier]]) :
    ∃ ls : List Lexeme, ts = ls.map (fun l => .token l.token) ∧
      ∀ l ∈ ls, l ∈ w ∧ l.kind = .identifier := by
  -- all symbols on the way are symbols of a name
  induction h with
  | nil => exact ⟨[], rfl, fun _ hl => absurd hl List.not_mem_nil⟩
  | @named _ kinds rest l _ _ hl _ ih =>
    obtain ⟨hhead, hbody⟩ := List.forall_mem_cons.1 hbody
    obtain ⟨ls, rfl, hls⟩ := ih hkeeps hbody
    have hkind : l.kind = .identifier := by
      rcases hhead with hhead | hhead | hhead
      · cases hhead
      · cases hhead
        exact List.mem_singleton.1 hl
      · cases hhead
    refine ⟨l :: ls, rfl, List.forall_mem_cons.2 ⟨⟨List.mem_cons_self, hkind⟩, fun k hk => ?_⟩⟩
    exact ⟨List.mem_cons_of_mem _ (hls k hk).1, (hls k hk).2⟩
  | kept => cases hkeeps
  | dropped _ _ ih =>
    obtain ⟨ls, rfl, hls⟩ := ih hkeeps (List.forall_mem_cons.1 hbody).2
    exact ⟨ls, rfl, fun k hk => ⟨List.mem_cons_of_mem _ (hls k hk).1, (hls k hk).2⟩⟩
  | rule | absent | present =>
    rcases (List.forall_mem_cons.1 hbody).1 with hhead | hhead | hhead <;> cases hhead
  | done _ ih => exact ih hkeeps (List.forall_mem_cons.1 hbody).2
  | again _ ih =>
    obtain ⟨hhead, hrest⟩ := List.forall_mem_cons.1 hbody
    rcases hhead with hhead | hhead | hhead
    · cases hhead
    · cases hhead
    · cases hhead
      refine ih hkeeps fun s hs => ?_
      rcases List.mem_append.1 hs with hs | hs
      · rcases List.mem_pair.1 hs with rfl | rfl
        · exact .inl rfl
        · exact .inr (.inl rfl)
      · exact hbody s hs

theorem artifacts_identifiers {ls : List Lexeme} (h : ∀ l ∈ ls, l.kind = .identifier) :
    (Tree.artifacts source (ls.map fun l => .token l.token)).outcome =
      .ok (ls.map fun l => .text l.text) := by
  induction ls with
  | nil => rfl
  | cons l ls ih =>
    obtain ⟨hl, hls⟩ := List.forall_mem_cons.1 h
    have htoken : (Tree.artifacts source [.token l.token]).outcome = .ok [.text l.text] := by
      have htrivia : l.token.kind.isTrivia = false := by
        change l.kind.isTrivia = false
        rw [hl]
        rfl
      have hassemble : l.token.assemble = .ok (.text l.text) := by
        unfold Token.assemble
        simp only [Lexeme.token, hl]
      rw [artifacts_token htrivia, hassemble]
      rfl
    have hsplit : (l :: ls).map (fun l => Tree.token l.token) =
        [.token l.token] ++ ls.map fun l => .token l.token := rfl
    rw [hsplit, artifacts_append, Run.bind_of_ok htoken, Run.bind_of_ok (ih hls)]
    rfl

theorem leavesOf_tokens (ls : List Lexeme) :
    (Tree.leavesOf (ls.map fun l => .token l.token)).map (·.text) = ls.map (·.text) := by
  induction ls with
  | nil => simp
  | cons l ls ih =>
    rw [List.map_cons, leavesOf_cons, leaves_token, List.map_append, ih]
    rfl

theorem assemble_qualified (site : ℕ) (text : String) (segments : List String) :
    Rule.qualifiedName.assemble site text (segments.map .text) =
      .ok (.expr (.name (".".intercalate segments))) := by
  have htexts : (segments.map Artifact.text).mapM Artifact.text? = some segments := by
    induction segments with
    | nil => rfl
    | cons segment segments ih => simp [ih, Artifact.text?]
  refine Nonterminal.assemble_of_artifact ?_
  change (do return Expr.name (".".intercalate (← (segments.map Artifact.text).mapM Artifact.text?))).map
    Artifact.expr = _
  rw [htexts]
  rfl

/-- A node of a name has this name, and the first of its segments is the name's first part. -/
theorem namesKnown_qualified {l : Lexeme} {ls : List Lexeme} (hdots : '.' ∉ l.text.toList)
    (h : ∀ k ∈ l :: ls, k.kind = .identifier) (span : Option Span) :
    NamesKnown source [.node .qualifiedName span ((l :: ls).map fun l => .token l.token)] := by
  intro as has a ha n hn
  obtain ⟨parts, made, hparts, hmade, rfl⟩ := assemble_of_artifacts (by simp) has
  obtain rfl := List.mem_singleton.1 ha
  rw [artifacts_identifiers h] at hparts
  have htexts : parts = ((l :: ls).map (·.text)).map .text := by
    cases hparts
    rw [List.map_map]
    rfl
  rw [htexts, assemble_qualified] at hmade
  cases hmade
  obtain rfl := List.mem_singleton.1 hn
  have hkeys : Tree.keysOf [.node .qualifiedName span ((l :: ls).map fun l => .token l.token)] =
      [".".intercalate ((l :: ls).map (·.text)), l.text] := by
    rw [keysOf_cons, keysOf_nil, List.append_nil, Tree.keys, leavesOf_tokens]
    rfl
  rw [hkeys]
  refine ⟨List.mem_cons_self, ?_⟩
  rw [List.map_cons, segments_intercalate hdots]
  exact List.mem_cons_of_mem _ List.mem_cons_self

/-- A token says where its text stands in the source. -/
def Lexeme.Placed (source : String) (l : Lexeme) : Prop :=
  (⟨l.start, l.stop⟩ : Span).slice source = l.text

/-- A node of a builtin name of several words has this name, which has no first part. -/
theorem namesKnown_special {l : Lexeme} (hl : l.kind = .specialName) (hspelled : l.Spelled)
    (hplaced : l.Placed source) :
    NamesKnown source [.node .specialFunctionName (spanOf [l]) [.token l.token]] := by
  intro as has a ha n hn
  obtain ⟨parts, made, -, hmade, rfl⟩ := assemble_of_artifacts (by simp) has
  obtain rfl := List.mem_singleton.1 ha
  have htext : (Tree.node .specialFunctionName (spanOf [l]) [.token l.token]).text source = l.text :=
    hplaced
  rw [htext] at hmade
  cases hmade
  obtain rfl := List.mem_singleton.1 hn
  have hkeys : Tree.keysOf [.node .specialFunctionName (spanOf [l]) [.token l.token]] =
      [Text.normalizeBlanks l.text] := by
    have hkind : l.token.kind = .specialName := hl
    rw [keysOf_cons, keys_node (by simp), keysOf_cons, keysOf_nil, Tree.keys, if_pos (.inl hkind)]
    rfl
  have hdots : '.' ∉ (Text.normalizeBlanks l.text).toList :=
    normalizeBlanks_lacks (by decide) (hspelled.phrase_undotted hl)
  rw [hkeys, Known, segments_undotted hdots]
  exact ⟨List.mem_cons_self, List.mem_cons_self⟩

/-! ### All trees -/

/-- Only the rule of a qualified name leaves nodes of this kind. -/
theorem rule_of_qualified (n : Nonterminal) : ∀ p ∈ n.productions,
    n.nodeOf? p = some .qualifiedName → n = .qualifiedName := by
  cases n <;> decide

theorem rule_of_special (n : Nonterminal) : ∀ p ∈ n.productions,
    n.nodeOf? p = some .specialFunctionName → n = .specialFunctionName := by
  cases n <;> decide

variable {w : List Lexeme}

/-- The node of a production, if it is so for the trees of its body. -/
theorem namesKnown_production {n : Nonterminal} {p : Production} {rule : Rule}
    (hp : p ∈ n.productions) (hr : n.nodeOf? p = some rule) (hd : Derives n.keeps p.body w ts)
    (hw : ∀ l ∈ w, l.Spelled ∧ l.Placed source) (h : NamesKnown source ts) :
    NamesKnown source [.node rule (spanOf w) ts] := by
  -- two rules are names themselves; all others have the names of their parts
  by_cases hname : rule = .qualifiedName
  · subst hname
    obtain rfl := rule_of_qualified n p hp hr
    obtain rfl := List.mem_singleton.1 hp
    cases hd with
    | @named _ _ _ l w _ hl hd =>
      obtain ⟨ls, rfl, hls⟩ := hd.identifiers rfl (by simp)
      have hkind : l.kind = .identifier := List.mem_singleton.1 hl
      refine namesKnown_qualified ((hw l List.mem_cons_self).1.name_undotted hkind) ?_ _
      exact List.forall_mem_cons.2 ⟨hkind, fun k hk => (hls k hk).2⟩
  by_cases hspecial : rule = .specialFunctionName
  · subst hspecial
    obtain rfl := rule_of_special n p hp hr
    obtain rfl := List.mem_singleton.1 hp
    cases hd with
    | @named _ _ _ l _ _ hl hd =>
      cases hd
      obtain ⟨hspelled, hplaced⟩ := hw l List.mem_cons_self
      exact namesKnown_special (List.mem_singleton.1 hl) hspelled hplaced
  · have hrule : rule ≠ .ambiguous := by
      rintro rfl
      exact n.node_ne_ambiguous p hp hr
    exact h.node hrule hname hspecial _

/-- **The artifacts of derived trees have no names but those of their trees.** -/
theorem Derives.namesKnown {keeps : Bool} {body : List Symbol} (h : Derives keeps body w ts)
    (hw : ∀ l ∈ w, l.Spelled ∧ l.Placed source) : NamesKnown source ts :=
  h.eachMade namedIn_append (fun _ hl => namesKnown_token hl.1.trivia)
    (fun _ _ _ _ _ hp hr hd hw hts => namesKnown_production hp hr hd hw hts) hw

end Trees

/-- The names of the artifact of a source are known from the keys of its tree. -/
theorem names_of_parse {unary : Bool} {source : String} {t : Tree} (h : parse unary source = .ok t)
    {a : Artifact} (ha : (t.build source).outcome = .ok (some a)) :
    ∀ n ∈ a.names, Known t.keys n := by
  obtain ⟨ls, htokens, ht⟩ := tells_of_parse h
  have hw : ∀ l ∈ ls, l.Spelled ∧ l.Placed source := fun l hl =>
    ⟨htokens.spelled l hl, (htokens.placed l hl).2.symm⟩
  have hknown : NamesKnown source [t] := Derives.namesKnown (ht.derives_last : Derives false _ _ _) hw
  have hkeys : Tree.keysOf [t] = t.keys := List.append_nil _
  rw [← hkeys]
  exact hknown [a] (artifacts_of_build ha) a List.mem_cons_self

/-! ## The key of the tested value -/

/-- No name has a question mark. -/
def Lexeme.Unasked (l : Lexeme) : Prop :=
  l.kind ∈ [Terminal.identifier, .specialName, .dateAndTime] → '?' ∉ l.text.toList

theorem keys_token_unasked {l : Lexeme} (h : l.Unasked) :
    ∀ key ∈ (Tree.token l.token).keys, '?' ∉ key.toList := by
  intro key hkey
  rw [Tree.keys] at hkey
  split at hkey
  · rename_i hkind
    have hkind : l.kind = .specialName ∨ l.kind = .dateAndTime := hkind
    rw [List.mem_singleton.1 hkey]
    exact normalizeBlanks_lacks (by decide) (h (by rcases hkind with hkind | hkind <;> simp [hkind]))
  · exact absurd hkey List.not_mem_nil

/-- Names joined by dots have no question mark if none of them has. -/
theorem intercalate_unasked {names : List String} (h : ∀ s ∈ names, '?' ∉ s.toList) :
    '?' ∉ (".".intercalate names).toList := by
  induction names with
  | nil => decide
  | cons s rest ih =>
    obtain ⟨hs, hrest⟩ := List.forall_mem_cons.1 h
    cases rest with
    | nil => rwa [String.intercalate_singleton]
    | cons part rest =>
      rw [toList_intercalate_dot]
      intro hmem
      rcases List.mem_append.1 hmem with hmem | hmem
      · exact hs hmem
      · exact (List.mem_cons.1 hmem).elim (by decide) (ih hrest)

theorem keys_qualified_unasked {l : Lexeme} {ls : List Lexeme} (h : ∀ k ∈ l :: ls, '?' ∉ k.text.toList)
    (span : Option Span) : ∀ key ∈ (Tree.node .qualifiedName span ((l :: ls).map fun l => .token l.token)).keys,
      '?' ∉ key.toList := by
  intro key hkey
  rw [Tree.keys, leavesOf_tokens] at hkey
  rcases List.mem_pair.1 hkey with rfl | rfl
  · exact intercalate_unasked (List.forall_mem_map.2 h)
  · exact h l List.mem_cons_self

/-- No key of a derived tree has a question mark. -/
theorem Derives.keys_unasked {keeps : Bool} {body : List Symbol} {w : List Lexeme} {ts : List Tree}
    (h : Derives keeps body w ts) :
    (∀ l ∈ w, l.Unasked) → ∀ key ∈ Tree.keysOf ts, '?' ∉ key.toList := by
  induction h with
  | nil => exact fun _ => List.forall_mem_nil _
  | named _ _ ih | kept _ _ ih =>
    intro hw
    obtain ⟨hl, hw⟩ := List.forall_mem_cons.1 hw
    exact List.forall_mem_append.2 ⟨keys_token_unasked hl, ih hw⟩
  | dropped _ _ ih => exact fun hw => ih (List.forall_mem_cons.1 hw).2
  | @rule _ n p _ v w us ts hp hd _ ihbody ih =>
    intro hw
    obtain ⟨hv, hw⟩ := List.forall_mem_append.1 hw
    rw [keysOf_append]
    refine List.forall_mem_append.2 ⟨?_, ih hw⟩
    cases hr : n.nodeOf? p with
    | none =>
      rw [Nonterminal.shape_of_none hp hr hd]
      exact ihbody hv
    | some rule =>
      rw [Nonterminal.shape_of_some hr, keysOf_cons, keysOf_nil, List.append_nil]
      by_cases hname : rule = .qualifiedName
      · subst hname
        obtain rfl := rule_of_qualified n p hp hr
        obtain rfl := List.mem_singleton.1 hp
        cases hd with
        | @named _ _ _ l w _ hl hd =>
          obtain ⟨ls, rfl, hls⟩ := hd.identifiers rfl (by simp)
          refine keys_qualified_unasked (List.forall_mem_cons.2 ⟨?_, fun k hk => ?_⟩) _
          · exact hv l List.mem_cons_self (by simp [List.mem_singleton.1 hl])
          · exact hv k (List.mem_cons_of_mem _ (hls k hk).1) (by simp [(hls k hk).2])
      · rw [keys_node hname]
        exact ihbody hv
  | absent _ ih | present _ ih | done _ ih | again _ ih => exact ih

/-- **The key of the tested value is no key of a source's names.** -/
theorem inputKey_notMem_keys {unary : Bool} {source : String} {t : Tree} (h : parse unary source = .ok t) :
    Scope.inputKey ∉ t.keys := by
  obtain ⟨ls, htokens, ht⟩ := tells_of_parse h
  have hd : Derives false [.rule (startRule unary)] ls [t] := ht.derives_last
  intro hkey
  have hlacks := hd.keys_unasked htokens.unasked Scope.inputKey (by simpa using hkey)
  exact hlacks (by decide)

end Criterion

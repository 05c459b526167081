import Criterion.Proofs.Comments
import Criterion.Proofs.Excerpts
import Criterion.Proofs.Ranks

/-!
# Other white space inside names

What a tree is made into depends on the texts of its tokens, and on its own text where a rule keeps it: in the texts of
calls, in types and brackets, and in builtin names of several words, of which only the words count. So two sources
whose tokens differ in places and in white space inside such names are made into expressions that differ in the places
of tests and in the texts of calls.

* `Artifact.unquoted`, `artifact_unquoted`: rules make the same of parts without the texts of calls.
* `Respelling`: two sources, with the layouts of their tokens.
* `MadeAlike.node`: a node is made alike in both sources, if its parts are.
* `matches_of_goesOver`: **sources whose tokens go over into each other have trees that are made alike.**
-/

namespace Criterion

open Lexer

/-! ## Artifacts without the texts of calls -/

/-- The artifact without the texts of the calls in it. -/
def Artifact.unquoted : Artifact → Artifact
  | .expr e => .expr e.unquoted
  | .entry key value => .entry key value.unquoted
  | .binding name domain => .binding name domain.unquoted
  | .bindings bs => .bindings (Expr.unquotedEntries bs)
  | .arguments es => .arguments (Expr.unquotedItems es)
  | .tests ts => .tests ⟨ts.negated, Expr.unquotedItems ts.tests⟩
  | .text s => .text s
  | .arithmetic op => .arithmetic op
  | .relation op => .relation op
  | .quantifier q => .quantifier q

section Artifacts

variable {a b : Artifact} {as : List Artifact} {e : Expr}

namespace Artifact

@[simp] theorem unquoted_text (s : String) : (text s).unquoted = .text s := rfl

@[simp] theorem unquoted_expr (e : Expr) : (expr e).unquoted = .expr e.unquoted := rfl

@[simp] theorem unquoted_relation (op : Relation) : (relation op).unquoted = .relation op := rfl

@[simp] theorem unquoted_arithmetic (op : Arithmetic) : (arithmetic op).unquoted = .arithmetic op := rfl

@[simp] theorem unquoted_quantifier (q : Quantifier) : (quantifier q).unquoted = .quantifier q := rfl

@[simp] theorem unquoted_entry (key : String) (value : Expr) :
    (entry key value).unquoted = .entry key value.unquoted := rfl

@[simp] theorem unquoted_binding (name : String) (domain : Expr) :
    (binding name domain).unquoted = .binding name domain.unquoted := rfl

@[simp] theorem unquoted_bindings (bs : List (String × Expr)) :
    (bindings bs).unquoted = .bindings (Expr.unquotedEntries bs) := rfl

@[simp] theorem unquoted_arguments (es : List Expr) :
    (arguments es).unquoted = .arguments (Expr.unquotedItems es) := rfl

end Artifact

@[simp] theorem operand_unquoted (a : Artifact) : a.unquoted.operand? = a.operand?.map Expr.unquoted := by
  cases a <;> rfl

@[simp] theorem text_unquoted (a : Artifact) : a.unquoted.text? = a.text? := by
  cases a <;> rfl

@[simp] theorem key_unquoted (a : Artifact) : a.unquoted.key? = a.key? := by
  cases a with
  | expr e =>
    cases e with
    | choose condition yes no => cases no <;> rfl
    | _ => rfl
  | _ => rfl

theorem Expr.unquotedItems_eq (es : List Expr) : Expr.unquotedItems es = es.map Expr.unquoted := by
  induction es with
  | nil => rfl
  | cons e rest ih => rw [Expr.unquotedItems, ih, List.map_cons]

theorem Expr.unquotedEntries_eq (bs : List (String × Expr)) :
    Expr.unquotedEntries bs = bs.map fun p => (p.1, p.2.unquoted) := by
  induction bs with
  | nil => rfl
  | cons p rest ih => rw [Expr.unquotedEntries, ih, List.map_cons]

theorem mapM_operand_unquoted (as : List Artifact) :
    (as.map Artifact.unquoted).mapM Artifact.operand? =
      (as.mapM Artifact.operand?).map Expr.unquotedItems := by
  rw [mapM_mapped operand_unquoted, ← funext Expr.unquotedItems_eq]

theorem mapM_text_unquoted (as : List Artifact) :
    (as.map Artifact.unquoted).mapM Artifact.text? = as.mapM Artifact.text? := by
  have htext : ∀ a : Artifact, a.unquoted.text? = a.text?.map id := fun a => by
    rw [text_unquoted, Option.map_id_fun, id]
  rw [mapM_mapped htext, List.map_id_fun, Option.map_id_fun, id]

theorem mapM_entry_unquoted (as : List Artifact) :
    (as.map Artifact.unquoted).mapM Artifact.entry? = (as.mapM Artifact.entry?).map Expr.unquotedEntries := by
  have hentry : ∀ a : Artifact, Artifact.entry? a.unquoted =
      Option.map (fun p : String × Expr => (p.1, p.2.unquoted)) ( Artifact.entry? a) := fun a => by cases a <;> rfl
  rw [mapM_mapped hentry, ← funext Expr.unquotedEntries_eq]

theorem mapM_binding_unquoted (as : List Artifact) :
    (as.map Artifact.unquoted).mapM Artifact.binding? =
      (as.mapM Artifact.binding?).map Expr.unquotedEntries := by
  have hbinding : ∀ a : Artifact, a.unquoted.binding? = a.binding?.map fun p => (p.1, p.2.unquoted) :=
    fun a => by cases a <;> rfl
  rw [mapM_mapped hbinding, ← funext Expr.unquotedEntries_eq]

theorem comparison_unquoted (h : Rule.comparison? as = some e) :
    Rule.comparison? (as.map Artifact.unquoted) = some e.unquoted := by
  have he : some e.unquoted = (Rule.comparison? as).map Expr.unquoted := by rw [h, Option.map_some]
  rw [he]
  clear he
  unfold Rule.comparison? at h
  split at h
  all_goals first
    | cases h
    | simp [Rule.comparison?, Expr.unquoted, Option.bind_map, Option.map_bind, Function.comp_def]

/-- The rules whose artifacts are made of their texts: a name of several words, a type, a bracket. -/
def Rule.isSpelled (r : Rule) : Bool :=
  r ∈ [Rule.type, .intervalStart, .intervalEnd, .specialFunctionName, .dateTimeConstructor]

/-- A rule makes of parts without the texts of calls what it makes of the parts, without these texts. -/
theorem expr_unquoted {site : ℕ} {text : String} {rule : Rule} (hrule : rule.isSpelled = false)
    (h : rule.expr? site text as = some e) :
    rule.expr? site "" (as.map Artifact.unquoted) = some e.unquoted := by
  have he : some e.unquoted = (rule.expr? site text as).map Expr.unquoted := by rw [h, Option.map_some]
  unfold Rule.expr? at h
  split at h
  all_goals first
    | cases hrule; done
    | exact comparison_unquoted h
    | cases h; done
    | cases h; rfl
    | rw [he]
      simp only [Rule.expr?, mapM_operand_unquoted, mapM_entry_unquoted, mapM_text_unquoted]
      simp [Expr.unquoted, Option.bind_map, Option.map_bind, Function.comp_def]

theorem tests_unquoted (as : List Artifact) : Rule.unaryTests? (as.map Artifact.unquoted) =
    (Rule.unaryTests? as).map fun ts => ⟨ts.negated, Expr.unquotedItems ts.tests⟩ := by
  rw [tests_mapped operand_unquoted (fun a s => by cases a <;> simp [Artifact.unquoted]) as]
  simp only [Expr.unquotedItems_eq]

theorem artifact_unquoted {site : ℕ} {text : String} {rule : Rule} (hrule : rule.isSpelled = false)
    (h : rule.artifact? site text as = some b) :
    rule.artifact? site "" (as.map Artifact.unquoted) = some b.unquoted := by
  have hb : some b.unquoted = (rule.artifact? site text as).map Artifact.unquoted := by rw [h, Option.map_some]
  have htests : (Rule.unaryTests? as).map .tests = some b →
      (Rule.unaryTests? (as.map Artifact.unquoted)).map .tests = some b.unquoted := by
    intro h
    obtain ⟨ts, hts, rfl⟩ := Option.map_eq_some_iff.1 h
    rw [tests_unquoted, hts]
    rfl
  have hexpr : (rule.expr? site text as).map .expr = some b →
      rule.artifact? site "" (as.map Artifact.unquoted) = some b.unquoted := by
    intro h
    obtain ⟨e, he, rfl⟩ := Option.map_eq_some_iff.1 h
    have hunquoted := expr_unquoted hrule he
    revert hunquoted
    generalize as.map Artifact.unquoted = bs
    intro hunquoted
    unfold Rule.artifact?
    split
    all_goals first
      | rw [hunquoted]; rfl
      | simp [Rule.expr?] at hunquoted
  unfold Rule.artifact? at h
  split at h
  all_goals first
    | cases hrule; done
    | exact htests h
    | exact hexpr h
    | cases h; done
    | cases h; rfl
    | rw [hb]
      simp only [Rule.artifact?, mapM_operand_unquoted, mapM_binding_unquoted]
      simp [Option.bind_map, Option.map_bind, Function.comp_def]

/-- What has no parts has no calls. -/
theorem Artifact.IsFlat.unquoted (h : a.IsFlat) : a.unquoted = a := by
  cases a with
  | expr e => cases e <;> first | rfl | exact h.elim
  | text | arithmetic | relation | quantifier => rfl
  | _ => exact h.elim

end Artifacts

/-! ## Sources that differ inside names -/

/-- Two sources with the same tokens, and how the places of the one go over into those of the other. -/
structure Respelling where
  source : String
  source' : String
  layout : Layout
  layout' : Layout
  place : ℕ ↪ ℕ

namespace Respelling

variable (r : Respelling)

/-- A token, told by its number, is written alike in both sources, but for white space inside a builtin name of
several words. -/
structure Keeps (l : Lexeme) : Prop where
  spelled : (l.located r.layout).Spelled
  spelled' : (l.located r.layout').Spelled
  start : (l.located r.layout').start = r.place (l.located r.layout).start
  slice : Span.slice ⟨(l.located r.layout).start, (l.located r.layout).stop⟩ r.source = (l.located r.layout).text
  slice' : Span.slice ⟨(l.located r.layout').start, (l.located r.layout').stop⟩ r.source' = (l.located r.layout').text
  text : isPhrase l.kind = false → (l.located r.layout').text = (l.located r.layout).text
  blanks : Text.normalizeBlanks (l.located r.layout').text = Text.normalizeBlanks (l.located r.layout).text

/-- An artifact of the second source is that of the first, but for the places and the texts of calls. -/
def Matches (a a' : Artifact) : Prop := a'.unquoted = a.unquoted.moved r.place

/-- What a tree, told by the numbers of its tokens, is made into in both sources. -/
def MadeAlike (t : Tree) : Prop := ∀ a a', (t.located r.layout).MadeInto r.source a →
  (t.located r.layout').MadeInto r.source' a' → r.Matches a a'

end Respelling

/-- Whether a tree is a builtin name of several words by itself. -/
def Tree.isPhrase : Tree → Bool
  | .token k => Lexer.isPhrase k.kind
  | .node .. => false

/-- No token of a symbol is a builtin name of several words. -/
def Symbol.allPlain : List Symbol → Bool := Symbol.allOf (fun k => !Lexer.isPhrase k) fun _ => true

section Trees

variable {r : Respelling} {keeps : Bool} {body : List Symbol} {w : List Lexeme} {t : Tree} {ts : List Tree}
  {l : Lexeme} {a a' : Artifact} {as as' : List Artifact}

theorem isTrivia_located (p : Layout) (t : Tree) : (t.located p).isTrivia = t.isTrivia := by
  cases t <;> rfl

/-- Symbols without builtin names of several words leave none. -/
theorem Derives.isPhrase_eq_false (h : Derives keeps body w ts) (hbody : Symbol.allPlain body = true) :
    ∀ t ∈ ts, t.isPhrase = false := by
  refine h.forall_of_symbols (fun l hl => ?_) (fun _ _ _ _ _ _ _ _ => rfl) (fun n p _ hp hr => ?_) hbody
  · show Lexer.isPhrase l.kind = false
    simpa using hl
  · have htable : ∀ p ∈ n.productions, n.nodeOf? p = none → Symbol.allPlain p.body = true := by
      cases n <;> decide
    exact htable p hp hr

namespace Respelling

/-- A token that is no such name stands for the same in both sources. -/
theorem Keeps.madeAlike (h : r.Keeps l) (hl : isPhrase l.kind = false) : r.MadeAlike (.token l.token) := by
  intro a a' ha ha'
  have ha := made_token h.spelled ha
  have ha' := made_token h.spelled' ha'
  have hsame : (l.located r.layout').token.assemble = (l.located r.layout).token.assemble := by
    unfold Token.assemble
    simp only [Lexeme.token, h.text hl]
    rfl
  rw [hsame, ha] at ha'
  cases ha'
  have hflat := flat_of_token ha
  show a.unquoted = a.unquoted.moved r.place
  rw [hflat.unquoted, hflat.moved]

/-- Parts that are made alike. -/
theorem parts_alike (hts : ∀ t ∈ ts, r.MadeAlike t)
    (has : List.Forall₂ (Tree.MadeInto r.source) (ts.map (Tree.located r.layout)) as)
    (has' : List.Forall₂ (Tree.MadeInto r.source') (ts.map (Tree.located r.layout')) as') :
    as'.map Artifact.unquoted = (as.map Artifact.unquoted).map (Artifact.moved r.place) := by
  induction ts generalizing as as' with
  | nil =>
    cases has
    cases has'
    rfl
  | cons t ts ih =>
    obtain ⟨ht, hts⟩ := List.forall_mem_cons.1 hts
    cases has with
    | cons hta has =>
      cases has' with
      | cons hta' has' =>
        rw [List.map_cons, List.map_cons, List.map_cons, ih hts has has', show _ = _ from ht _ _ hta hta']

/-- A rule makes alike what it does not take from its text. -/
theorem node_alike {rule : Rule} (hrule : rule.isSpelled = false) {site site' : ℕ} {text text' : String}
    (hsite : site' = r.place site)
    (has : as'.map Artifact.unquoted = (as.map Artifact.unquoted).map (Artifact.moved r.place))
    (h : rule.artifact? site text as = some a) (h' : rule.artifact? site' text' as' = some a') : r.Matches a a' := by
  have hmoved := artifact_moved (ρ := r.place) (artifact_unquoted hrule h)
  have hunquoted := artifact_unquoted hrule h'
  rw [has, hsite, hmoved] at hunquoted
  exact (Option.some.inj hunquoted).symm

/-- What a node in its place is made of. -/
theorem made_of_node {p : Layout} {source : String} {rule : Rule} {s : Span} (hrule : rule ≠ .ambiguous)
    (hts : ∀ t ∈ ts, t.isTrivia = false)
    (h : ((Tree.node rule (some s) ts).located p).MadeInto source a) :
    ∃ as, List.Forall₂ (Tree.MadeInto source) (ts.map (Tree.located p)) as ∧
      rule.artifact? (p.start s.start) ((s.located p).slice source) as = some a := by
  rw [located_node] at h
  obtain ⟨as, made, has, hmade, heq⟩ := assemble_of_artifacts hrule h
  obtain rfl := List.singleton_inj.1 heq
  have htrivia : ∀ t ∈ ts.map (Tree.located p), t.isTrivia = false := by
    intro t ht
    obtain ⟨u, hu, rfl⟩ := List.mem_map.1 ht
    rw [isTrivia_located]
    exact hts u hu
  exact ⟨as, made_of_artifacts htrivia has, Nonterminal.artifact_of_assemble hmade⟩

/-- One token that the grammar names. -/
theorem derives_named {keeps : Bool} {kinds : List Terminal} (h : Derives keeps [.named kinds] w ts) :
    ∃ l, w = [l] ∧ ts = [.token l.token] ∧ l.kind ∈ kinds := by
  cases h with
  | named hl h =>
    cases h
    exact ⟨_, rfl, rfl, hl⟩

/-- One token that the grammar writes as text, in a rule that keeps it. -/
theorem derives_kept {kinds : List Terminal} (h : Derives true [.text kinds] w ts) :
    ∃ l, w = [l] ∧ ts = [.token l.token] ∧ l.kind ∈ kinds := by
  cases h with
  | kept hl h =>
    cases h
    exact ⟨_, rfl, rfl, hl⟩

theorem isPhrase_of_mem {kinds : List Terminal} {k : Terminal} (h : kinds.all (fun k => !isPhrase k) = true)
    (hk : k ∈ kinds) : isPhrase k = false := by
  simpa using List.all_eq_true.1 h k hk

/-- A rule that stands for the text of its token. -/
theorem text_alike {rule : Rule} (hrule : rule = .type ∨ rule = .intervalStart ∨ rule = .intervalEnd)
    (hl : r.Keeps l) (hkind : isPhrase l.kind = false) : r.MadeAlike (.node rule (spanOf [l]) [.token l.token]) := by
  have hspan : spanOf [l] = some ⟨l.start, l.stop⟩ := rfl
  have hnot : rule ≠ .ambiguous := by
    rcases hrule with rfl | rfl | rfl <;> exact Rule.noConfusion
  have htrivia : ∀ t ∈ [Tree.token l.token], t.isTrivia = false :=
    List.forall_mem_singleton.2 hl.spelled.trivia
  intro a a' ha ha'
  rw [hspan] at ha ha'
  obtain ⟨as, -, h⟩ := made_of_node hnot htrivia ha
  obtain ⟨as', -, h'⟩ := made_of_node hnot htrivia ha'
  have htext : ∀ site text as, rule.artifact? site text as = some (.text text) := by
    intro site text as
    rcases hrule with rfl | rfl | rfl <;> simp only [Rule.artifact?]
  rw [htext] at h h'
  cases h
  cases h'
  show Artifact.text _ = Artifact.text _
  rw [show ((⟨l.start, l.stop⟩ : Span).located r.layout).slice r.source = _ from hl.slice,
    show ((⟨l.start, l.stop⟩ : Span).located r.layout').slice r.source' = _ from hl.slice', hl.text hkind]

/-- A builtin name of several words stands for the same whatever white space is between its words. -/
theorem name_alike (hl : r.Keeps l) : r.MadeAlike (.node .specialFunctionName (spanOf [l]) [.token l.token]) := by
  have hspan : spanOf [l] = some ⟨l.start, l.stop⟩ := rfl
  have htrivia : ∀ t ∈ [Tree.token l.token], t.isTrivia = false :=
    List.forall_mem_singleton.2 hl.spelled.trivia
  intro a a' ha ha'
  rw [hspan] at ha ha'
  obtain ⟨as, -, h⟩ := made_of_node Rule.noConfusion htrivia ha
  obtain ⟨as', -, h'⟩ := made_of_node Rule.noConfusion htrivia ha'
  simp only [Rule.artifact?, Rule.expr?, Option.map_some, Option.some.injEq] at h h'
  subst h h'
  show Artifact.expr (.name _) = Artifact.expr (.name _)
  rw [show ((⟨l.start, l.stop⟩ : Span).located r.layout).slice r.source = _ from hl.slice,
    show ((⟨l.start, l.stop⟩ : Span).located r.layout').slice r.source' = _ from hl.slice', hl.blanks]

/-- What the call of `date and time` is made of. -/
theorem constructor_eq {site : ℕ} {text : String} (h : Rule.dateTimeConstructor.artifact? site text as = some a) :
    ∃ name es, as = [.text name, .arguments es] ∧
      a = .expr (.call text (.registered (Text.normalizeBlanks name)) es) := by
  simp only [Rule.artifact?, Option.map_eq_some_iff] at h
  obtain ⟨e, he, rfl⟩ := h
  unfold Rule.expr? at he
  split at he
  all_goals first
    | contradiction
    | skip
  cases he
  exact ⟨_, _, rfl, rfl⟩

/-- The call of `date and time`. -/
theorem constructor_alike {v : List Lexeme} {ts : List Tree} (hl : r.Keeps l) (hkind : l.kind = .dateAndTime)
    (htrivia : ∀ t ∈ ts, t.isTrivia = false) (hts : ∀ t ∈ ts, r.MadeAlike t) :
    r.MadeAlike (.node .dateTimeConstructor (spanOf (l :: v)) (.token l.token :: ts)) := by
  obtain ⟨s, hs⟩ := exists_spanOf (List.cons_ne_nil l v)
  have htrivia : ∀ t ∈ Tree.token l.token :: ts, t.isTrivia = false :=
    List.forall_mem_cons.2 ⟨hl.spelled.trivia, htrivia⟩
  have hassemble : ∀ k : Lexeme, k.kind = .dateAndTime → k.token.assemble = .ok (.text k.text) := by
    intro k hk
    unfold Token.assemble
    simp only [Lexeme.token, hk]
  intro a a' ha ha'
  rw [hs] at ha ha'
  obtain ⟨as, has, h⟩ := made_of_node Rule.noConfusion htrivia ha
  obtain ⟨as', has', h'⟩ := made_of_node Rule.noConfusion htrivia ha'
  obtain ⟨name, es, rfl, rfl⟩ := constructor_eq h
  obtain ⟨name', es', rfl, rfl⟩ := constructor_eq h'
  rw [List.map_cons] at has has'
  cases has with
  | cons hname has =>
    cases has' with
    | cons hname' has' =>
      have hname := made_token hl.spelled hname
      have hname' := made_token hl.spelled' hname'
      rw [hassemble (l.located r.layout) hkind] at hname
      rw [hassemble (l.located r.layout') hkind] at hname'
      cases hname
      cases hname'
      have harguments := parts_alike hts has has'
      simp only [List.map_cons, List.map_nil, Artifact.unquoted_arguments, Artifact.moved_arguments,
        List.cons.injEq, Artifact.arguments.injEq, and_true] at harguments
      show Artifact.expr (.call "" (.registered _) _) = Artifact.expr (.call "" (.registered _) _)
      rw [harguments, hl.blanks]

/-- **A node is made alike in both sources**, if its parts are. -/
theorem MadeAlike.node {n : Nonterminal} {p : Production} {rule : Rule} (hp : p ∈ n.productions)
    (hr : n.nodeOf? p = some rule) (hd : Derives n.keeps p.body w ts) (hw : ∀ l ∈ w, r.Keeps l)
    (htrivia : ∀ t ∈ ts, t.isTrivia = false) (hts : ∀ t ∈ ts, t.isPhrase = false → r.MadeAlike t) :
    r.MadeAlike (.node rule (spanOf w) ts) := by
  by_cases hrule : rule.isSpelled = false
  · have hplain : ∀ p ∈ n.productions, ∀ rule, n.nodeOf? p = some rule → rule.isSpelled = false →
        Symbol.allPlain p.body = true := by
      have htable : ∀ p ∈ n.productions, (n.nodeOf? p).all (fun rule => rule.isSpelled ||
          Symbol.allPlain p.body) = true := by
        cases n <;> decide
      intro p hp rule hr hrule
      have hall := htable p hp
      rw [hr, Option.all_some, hrule, Bool.false_or] at hall
      exact hall
    have hparts := hd.isPhrase_eq_false (hplain p hp rule hr hrule)
    obtain ⟨s, hs⟩ := exists_spanOf (hd.ne_nil (productions_required _ _ hp))
    obtain ⟨l, hl, hstart⟩ := (mem_ends hs).1
    have hnot : rule ≠ .ambiguous := by
      rintro rfl
      exact n.node_ne_ambiguous p hp hr
    intro a a' ha ha'
    rw [hs] at ha ha'
    obtain ⟨as, has, h⟩ := made_of_node hnot htrivia ha
    obtain ⟨as', has', h'⟩ := made_of_node hnot htrivia ha'
    have hsite : r.layout'.start s.start = r.place (r.layout.start s.start) := by
      rw [← hstart]
      exact (hw l hl).start
    exact node_alike hrule hsite (parts_alike (fun t ht => hts t ht (hparts t ht)) has has') h h'
  · have hspelled : n ∈ [Nonterminal.type, .intervalStart, .intervalEnd, .specialFunctionName,
        .dateTimeConstructor] := by
      have htable : ∀ p ∈ n.productions, (n.nodeOf? p).all (fun rule => !rule.isSpelled ||
          decide (n ∈ [Nonterminal.type, .intervalStart, .intervalEnd, .specialFunctionName,
            .dateTimeConstructor])) = true := by
        cases n <;> decide
      have hall := htable p hp
      rw [hr, Option.all_some, Bool.eq_true_of_not_eq_false hrule, Bool.not_true, Bool.false_or] at hall
      exact of_decide_eq_true hall
    have hone : ∀ l, w = [l] → ts = [.token l.token] →
        rule = .type ∨ rule = .intervalStart ∨ rule = .intervalEnd → isPhrase l.kind = false →
          r.MadeAlike (.node rule (spanOf w) ts) := by
      rintro l rfl rfl hrule hkind
      exact text_alike hrule (hw l List.mem_cons_self) hkind
    simp only [List.mem_cons, List.not_mem_nil, or_false] at hspelled
    rcases hspelled with rfl | rfl | rfl | rfl | rfl <;> obtain rfl := List.mem_singleton.1 hp <;> cases hr
    · obtain ⟨l, hwl, htl, hkind⟩ := derives_named hd
      exact hone l hwl htl (.inl rfl) (isPhrase_of_mem rfl hkind)
    · obtain ⟨l, hwl, htl, hkind⟩ := derives_kept hd
      exact hone l hwl htl (.inr (.inl rfl)) (isPhrase_of_mem rfl hkind)
    · obtain ⟨l, hwl, htl, hkind⟩ := derives_kept hd
      exact hone l hwl htl (.inr (.inr rfl)) (isPhrase_of_mem rfl hkind)
    · obtain ⟨l, rfl, rfl, -⟩ := derives_named hd
      exact name_alike (hw l List.mem_cons_self)
    · cases hd with
      | named hl hd =>
        obtain ⟨-, htrivia⟩ := List.forall_mem_cons.1 htrivia
        obtain ⟨-, hts⟩ := List.forall_mem_cons.1 hts
        have hparts := hd.isPhrase_eq_false rfl
        exact constructor_alike (hw _ List.mem_cons_self) (List.mem_singleton.1 hl) htrivia
          fun t ht => hts t ht (hparts t ht)

/-- The tree of both sources is made alike. -/
theorem madeAlike_of_outline {unary : Bool} {kinds : List Terminal} (h : outline unary kinds = some t)
    (hkeeps : ∀ l ∈ numbered kinds, r.Keeps l) : r.MadeAlike t := by
  have ht := readings_complete unary (numbered_ordered kinds)
  rw [show (readings unary (numbered kinds)).complete? = some t from h] at ht
  have hd : Derives false [.rule (startRule unary)] (numbered kinds) [t] := ht.derives_last
  have hall := hd.forall_trees (Q := fun t => t.isTrivia = false ∧ (t.isPhrase = false → r.MadeAlike t))
    (L := r.Keeps) (fun l hl => ⟨hl.spelled.trivia, hl.madeAlike⟩) ?_ hkeeps t List.mem_cons_self
  · exact hall.2 (hd.isPhrase_eq_false rfl t List.mem_cons_self)
  · intro n p w ts rule hp hr hd hw hts
    exact ⟨rfl, fun _ => .node hp hr hd hw (fun t ht => (hts t ht).1) fun t ht => (hts t ht).2⟩

end Respelling

/-- A token of one source and that of another one that goes over into it. -/
structure Lexeme.GoesOver (place : ℕ ↪ ℕ) (l l' : Lexeme) : Prop where
  kind : l'.kind = l.kind
  start : l'.start = place l.start
  text : isPhrase l.kind = false → l'.text = l.text
  blanks : Text.normalizeBlanks l'.text = Text.normalizeBlanks l.text

variable {unary : Bool} {source source' : String} {place : ℕ ↪ ℕ} {ls ls' : List Lexeme} {t' : Tree}

theorem kinds_of_goesOver (h : List.Forall₂ (Lexeme.GoesOver place) ls ls') : ls'.map (·.kind) = ls.map (·.kind) := by
  induction h with
  | nil => rfl
  | cons hl _ ih => rw [List.map_cons, List.map_cons, hl.kind, ih]

/-- The text of a token is what its span covers. -/
theorem slice_of_tokens (h : Tokens unary 0 source.toList ls) (hl : l ∈ ls) :
    Span.slice ⟨l.start, l.stop⟩ source = l.text := (h.placed l hl).2.symm

/-- **Sources whose tokens go over into each other have trees that are made alike.** -/
theorem matches_of_goesOver (h : Tokens unary 0 source.toList ls) (h' : Tokens unary 0 source'.toList ls')
    (hover : List.Forall₂ (Lexeme.GoesOver place) ls ls') (ht : parse unary source = .ok t)
    (ht' : parse unary source' = .ok t') (hmade : t.MadeInto source a) (hmade' : t'.MadeInto source' a') :
    a'.unquoted = a.unquoted.moved place := by
  have hkinds := kinds_of_goesOver hover
  have htree := parse_of_tokens h
  have htree' := parse_of_tokens h'
  rw [ht] at htree
  rw [ht', hkinds] at htree'
  obtain ⟨u, hu, rfl⟩ := Option.map_eq_some_iff.1 htree.symm
  rw [hu] at htree'
  obtain rfl := Option.some.inj htree'
  have hnumbered := Layout.numbered_located h.ordered
  have hnumbered' := Layout.numbered_located h'.ordered
  rw [hkinds] at hnumbered'
  clear ht ht' htree htree'
  generalize Layout.ofLexemes ls h.ordered = layout at hmade hnumbered
  generalize Layout.ofLexemes ls' h'.ordered = layout' at hmade' hnumbered'
  refine Respelling.madeAlike_of_outline (r := ⟨source, source', layout, layout', place⟩) hu (fun l hl => ?_) a a'
    hmade hmade'
  have hmem : l.located layout ∈ ls := hnumbered ▸ List.mem_map_of_mem hl
  have hmem' : l.located layout' ∈ ls' := hnumbered' ▸ List.mem_map_of_mem hl
  have hpair : Lexeme.GoesOver place (l.located layout) (l.located layout') := by
    have hpairs := hover
    rw [← hnumbered, ← hnumbered', List.forall₂_map_left_iff, List.forall₂_map_right_iff,
      List.forall₂_same] at hpairs
    exact hpairs l hl
  exact ⟨h.spelled _ hmem, h'.spelled _ hmem', hpair.start, slice_of_tokens h hmem, slice_of_tokens h' hmem',
    hpair.text, hpair.blanks⟩

end Trees

end Criterion

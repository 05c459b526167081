import Criterion.Proofs.Inclusion
import Criterion.Proofs.RoundTrip
import Criterion.Proofs.Shadowing
import Criterion.Proofs.Verdicts

/-!
# Dotted names and paths

A field of a field can be asked for in two ways: by one name with dots, which a scope takes apart, and by paths
behind an expression. In scopes without dots in their keys both lead to the same value, whatever the first part
of the name stands for, unless the registry has something under the whole name.

* `pathed`, `Expr.paths`: the paths behind a name in parentheses, as a source and as an expression.
* `Reader.strides_dots`: a reader that goes on behind each dot reads all names with dots before them.
* `parse_dotted`, `parse_pathed`: **the two sources are read as a name and as paths behind a name.**
* `resolve_unregistered`, `eval_paths`: the values of both.
* `dotted_name_agrees_with_paths`: **the two ways agree.**
* `registered_whole_name_wins`: a name in the registry may have dots, and comes first.
-/

namespace Criterion

/-! ## Values -/

/-- The paths that lead from an expression to fields of fields. -/
def Expr.paths (e : Expr) (fields : List String) : Expr := fields.foldl Expr.path e

/-- The registry has nothing to offer under a name. -/
def Unregistered (registry : Fields) (name : String) : Prop :=
  registry.get? name = none ∨ registry.get? name = some .null

/-- No layer of a scope has a key with a dot. -/
def Scope.Undotted (s : Scope) : Prop := ∀ layer ∈ s.layers, ∀ p ∈ layer, '.' ∉ p.1.toList

section Values

variable {registry : Fields} {scope : Scope} {head : String} {rest : List String}

theorem eval_paths (registry : Fields) (scope : Scope) (e : Expr) (fields : List String) :
    (e.paths fields).eval registry scope = (do return (← e.eval registry scope).walk fields) := by
  unfold Expr.paths Value.walk
  induction fields generalizing e with
  | nil => simp
  | cons field fields ih =>
    rw [List.foldl_cons, ih, Expr.eval, bind_assoc]
    simp

/-- A name that the registry does not offer is read in the scope. -/
theorem eval_unregistered {name : String} (h : Unregistered registry name) (s : Scope) :
    (Expr.name name).eval registry s = pure (s.resolve name) := by
  unfold Expr.eval resolveName
  rcases h with h | h <;> rw [h]

/-- What is registered under a name is its value, null apart. -/
theorem eval_registered {name : String} {v : Value} (h : registry.get? name = some v) (hv : v ≠ .null)
    (s : Scope) : (Expr.name name).eval registry s = pure v := by
  unfold Expr.eval resolveName
  rw [h]
  cases v with
  | null => exact absurd rfl hv
  | _ => rfl

theorem Scope.Undotted.get_eq_none (h : scope.Undotted) {name : String} (hname : '.' ∈ name.toList) :
    scope.get? name = none := by
  refine List.findSome?_eq_none_iff.2 fun layer hlayer => ?_
  by_contra hget
  obtain ⟨v, hv⟩ := Option.ne_none_iff_exists'.1 hget
  exact h layer hlayer _ (mem_of_get hv) hname

/-- Null leads to null only. -/
theorem walk_null (fields : List String) : Value.null.walk fields = .null := by
  induction fields with
  | nil => rfl
  | cons field fields ih =>
    have hfield : Value.null.fieldOrFields field = .null := by
      simp [Value.fieldOrFields, Value.field, Value.methods, Value.ownField?, Value.ofOption]
    unfold Value.walk at ih ⊢
    rw [List.foldl_cons, hfield, ih]

/-- **In a scope without dots a dotted name leads through the fields of its first part**, from null if there is
no such value. -/
theorem resolve_undotted (h : AreParts (head :: rest)) (hscope : scope.Undotted) :
    scope.resolve (dotted head rest) = (scope.get head).walk rest := by
  cases rest with
  | nil =>
    have hname : dotted head [] = head := by simp [dotted]
    unfold Scope.resolve Scope.get
    rw [segments_dotted h, hname]
    cases scope.get? head <;> rfl
  | cons part rest =>
    have hwhole : scope.get? (dotted head (part :: rest)) = none :=
      hscope.get_eq_none (by rw [toList_dotted]; simp)
    cases hhead : scope.get? head with
    | some v =>
      rw [resolve_dotted h (by simp) hhead, hwhole, Scope.get, hhead]
      rfl
    | none =>
      have hget : scope.get head = .null := by
        unfold Scope.get
        rw [hhead]
        rfl
      rw [hget, walk_null]
      unfold Scope.resolve
      rw [hwhole, segments_dotted h]
      simp only [hhead, ite_self]

end Values

/-! ## Tokens -/

/-- Paths behind a name in parentheses. -/
def pathed (head : String) (rest : List String) : String := dotted ("(" ++ head ++ ")") rest

/-- The text of names with a dot before each. -/
def behindDots (parts : List String) : List Char := parts.flatMap fun part => '.' :: part.toList

/-- Names with a dot before each. -/
inductive Dots : List String → List Lexeme → Prop where
  | nil : Dots [] []
  | cons {l m : Lexeme} {part : String} {parts : List String} {w : List Lexeme} : l.kind = .dot →
    m.kind = .identifier → m.text = part → Dots parts w → Dots (part :: parts) (l :: m :: w)

theorem dotted_toList (head : String) (rest : List String) :
    (dotted head rest).toList = head.toList ++ behindDots rest := by
  induction rest generalizing head with
  | nil => simp [dotted, behindDots]
  | cons part rest ih =>
    rw [toList_dotted, ih]
    rfl

section Tokens

open Lexer

variable {head : String} {rest : List String}

theorem Lexer.IsName.isPart {name : String} (h : IsName name) : name ≠ "" ∧ '.' ∉ name.toList := by
  refine ⟨?_, fun hmem => ?_⟩
  · rintro rfl
    exact absurd h.starts (by decide)
  · have hpart := h.parts _ hmem
    revert hpart
    decide

/-- A dot before a name is a token. -/
theorem scan_dot {c : Char} (hc : isWordStart c = true) (cs : List Char) :
    scan? false ('.' :: c :: cs) = some (.dot, 1) := by
  have hpoint : c ≠ '.' := by
    rintro rfl
    revert hc
    decide
  have hnumber : number? ('.' :: c :: cs) = none := by
    have hdigit := isDigit_of_wordStart hc
    simp [number?, List.takeWhile, hdigit, show Text.isDigit '.' = false by decide]
  have hsymbol : symbol? ('.' :: c :: cs) = some (.dot, 1) := by
    simp [symbol?, symbols, hpoint.symm]
  unfold scan?
  rw [word?_eq, phrases_missed (by decide), hnumber, hsymbol]
  rfl

theorem endsName_behindDots : EndsName (behindDots rest) := by
  refine endsName_of_head fun c hc => ?_
  cases rest with
  | nil => cases hc
  | cons part rest =>
    cases hc
    decide

/-- The tokens of names with a dot before each. -/
theorem tokens_behindDots (h : ∀ s ∈ rest, IsName s) (position : ℕ) :
    ∃ w, Tokens false position (behindDots rest) w ∧ Dots rest w := by
  induction rest generalizing position with
  | nil => exact ⟨[], .done, .nil⟩
  | cons part rest ih =>
    obtain ⟨hpart, hrest⟩ := List.forall_mem_cons.1 h
    obtain ⟨w, hw, hdots⟩ := ih hrest (position + 1 + part.toList.length)
    obtain ⟨m, hm, htext, hname⟩ := tokens_scanned (hpart.scans_before endsName_behindDots) rfl hw
    rw [String.ofList_toList] at htext
    obtain ⟨c, letters, hletters⟩ : ∃ c letters, part.toList = c :: letters := by
      refine List.exists_cons_of_ne_nil fun hnil => hpart.isPart.1 ?_
      exact String.toList_inj.1 (hnil.trans rfl)
    have hc : isWordStart c = true := by
      have hstarts := hpart.starts
      rwa [hletters] at hstarts
    rw [hletters, List.cons_append] at hname
    obtain ⟨l, hl, -, hall⟩ := tokens_symbol (scan_dot hc _) rfl hname
    refine ⟨l :: m :: w, ?_, .cons hl hm htext hdots⟩
    have htext : behindDots (part :: rest) = '.' :: c :: (letters ++ behindDots rest) := by
      change '.' :: part.toList ++ behindDots rest = _
      rw [hletters]
      rfl
    rwa [htext]

/-- **The tokens of a dotted name.** -/
theorem tokens_dotted (h : ∀ s ∈ head :: rest, IsName s) : ∃ (l : Lexeme) (w : List Lexeme),
    Tokens false 0 (dotted head rest).toList (l :: w) ∧ l.kind = .identifier ∧ l.text = head ∧ Dots rest w := by
  obtain ⟨hhead, hrest⟩ := List.forall_mem_cons.1 h
  obtain ⟨w, hw, hdots⟩ := tokens_behindDots hrest (0 + head.toList.length)
  obtain ⟨l, hl, htext, hall⟩ := tokens_scanned (hhead.scans_before endsName_behindDots) rfl hw
  rw [String.ofList_toList] at htext
  rw [dotted_toList]
  exact ⟨l, w, hall, hl, htext, hdots⟩

/-- **The tokens of paths behind a name in parentheses.** -/
theorem tokens_pathed (h : ∀ s ∈ head :: rest, IsName s) : ∃ (p l q : Lexeme) (w : List Lexeme),
    Tokens false 0 (pathed head rest).toList (p :: l :: q :: w) ∧ p.kind = .leftParen ∧
      l.kind = .identifier ∧ l.text = head ∧ q.kind = .rightParen ∧ Dots rest w := by
  obtain ⟨hhead, hrest⟩ := List.forall_mem_cons.1 h
  obtain ⟨w, hw, hdots⟩ := tokens_behindDots hrest (0 + 1 + head.toList.length + 1)
  obtain ⟨q, hq, -, hclosing⟩ := tokens_symbol (t := .rightParen) (c := ')') rfl rfl hw
  have hends : EndsName (')' :: behindDots rest) := by
    refine endsName_of_head fun c hc => ?_
    cases hc
    decide
  obtain ⟨l, hl, htext, hname⟩ := tokens_scanned (hhead.scans_before hends) rfl hclosing
  rw [String.ofList_toList] at htext
  obtain ⟨p, hp, -, hall⟩ := tokens_symbol (t := .leftParen) (c := '(') rfl rfl hname
  have hlist : (pathed head rest).toList = '(' :: (head.toList ++ ')' :: behindDots rest) := by
    unfold pathed
    rw [dotted_toList]
    simp [String.toList_append]
  rw [hlist]
  exact ⟨p, l, q, w, hall, hp, hl, htext, hq, hdots⟩

end Tokens

/-! ## Readings -/

/-- What a tree is built into. -/
def Tree.Builds (e : Expr) (t : Tree) : Prop :=
  ∀ source, (Tree.artifacts source [t]).outcome = .ok [.expr e]

section Readings

open Reader Grammar

variable {α : Type} {e : Reader Tree} {c d x : Cursor} {head : String} {rest : List String}
  {l p q : Lexeme} {w : List Lexeme} {t : Tree} {n : ℕ}

theorem dots_undotted (h : Dots rest w) : ∀ k ∈ w, k.kind ≠ .dots := by
  induction h with
  | nil => exact List.forall_mem_nil _
  | cons hl hm _ _ ih =>
    refine List.forall_mem_cons.2 ⟨by rw [hl]; decide, List.forall_mem_cons.2 ⟨by rw [hm]; decide, ih⟩⟩

/-- **A step that goes on behind a dot and a name goes on behind all of them.** What it keeps with each name it
has kept in the end. -/
theorem Reader.strides_dots {step : α → Reader α} {P : List String → α → Prop}
    (hstep : ∀ {done part a} {c : Cursor} {l m : Lexeme} {behind : List Lexeme}, P done a →
      c.rest = l :: m :: behind → l.kind = .dot → m.kind = .identifier → m.text = part →
        ∃ b, (step a).Sole c b ⟨m.stop, behind⟩ ∧ P (done ++ [part]) b)
    (h : Dots rest w) : ∀ {done a} {c d : Cursor}, P done a → c.Passes w d → c.Ordered →
      ∃ b, Relation.ReflTransGen (Strides step [.dot] []) (a, c) (b, d) ∧ P (done ++ rest) b := by
  induction h with
  | nil =>
    intro done a c d ha hpasses _
    obtain rfl : c = d := by
      obtain ⟨stop, tokens⟩ := c
      obtain ⟨stop', tokens'⟩ := d
      obtain ⟨htokens, hstop⟩ := hpasses
      exact congrArg₂ Cursor.mk hstop.symm htokens
    exact ⟨a, .refl, by rwa [List.append_nil]⟩
  | @cons l m part parts w hl hm htext hdots ih =>
    intro done a c d ha hpasses ho
    obtain ⟨x, hfront, hbehind⟩ := Cursor.Passes.split (u := [l, m]) hpasses
    have hc : c.rest = l :: m :: x.rest := hfront.rest
    have hx : x = ⟨m.stop, x.rest⟩ := Cursor.Passes.eq_mk (w := [l]) hfront
    obtain ⟨b, hb, hkept⟩ := hstep ha hc hl hm htext
    rw [← hx] at hb
    obtain ⟨b', hstrides, hall⟩ := ih hkept hbehind (ho.passes hfront)
    rw [List.append_assoc] at hall
    have hshorter : x.rest.length < c.rest.length := by
      rw [hc, List.length_cons, List.length_cons]
      omega
    exact ⟨b', .head ⟨hb.only [], ⟨l, by rw [hc]; rfl, List.mem_singleton.2 hl⟩, hfront.lt_stop ho, hshorter⟩
      hstrides, hall⟩

/-! ### Names with dots -/

/-- A further part of a name. -/
def nameStep (names : List Tree) : Reader (List Tree) := do
  skip .dot
  let next ← token [.identifier]
  return names ++ [next]

/-- The tokens of names. -/
def AreNames (parts : List String) (ts : List Tree) : Prop :=
  ∃ ls : List Lexeme, ts = ls.map (fun l => .token l.token) ∧ (∀ l ∈ ls, l.kind = .identifier) ∧
    ls.map (·.text) = parts

theorem builds_name {ts : List Tree} (h : AreNames (head :: rest) ts) (span : Option Span) :
    (Tree.node .qualifiedName span ts).Builds (.name (dotted head rest)) := by
  obtain ⟨ls, rfl, hls, htexts⟩ := h
  intro source
  refine artifacts_node_ok (by decide) (artifacts_identifiers hls) fun site text => ?_
  have hparts : ls.map (fun l => Artifact.text l.text) = (head :: rest).map .text := by
    rw [← htexts, List.map_map]
    rfl
  rw [hparts, assemble_qualified]
  rfl

theorem only_qualifiedName (h : Dots rest w) (hc : c.Passes (l :: w) d) (ho : c.Ordered)
    (hl : l.kind = .identifier) (htext : l.text = head) (hd : ∀ k ∈ d.rest.head?, k.kind ≠ .dot) :
    ∃ t, qualifiedName.Only c t d [.dot] ∧ t.Builds (.name (dotted head rest)) := by
  obtain ⟨x, hfirst, hbehind⟩ := Cursor.Passes.split (u := [l]) hc
  have hx : x = ⟨l.stop, x.rest⟩ := Cursor.Passes.eq_mk (w := []) hfirst
  have hhead : (token [.identifier]).Sole c (.token l.token) x := by
    rw [hx]
    exact sole_token hfirst.rest (List.mem_singleton.2 hl)
  have hstep : ∀ {done part names} {c : Cursor} {l m : Lexeme} {behind : List Lexeme}, AreNames done names →
      c.rest = l :: m :: behind → l.kind = .dot → m.kind = .identifier → m.text = part →
        ∃ names', (nameStep names).Sole c names' ⟨m.stop, behind⟩ ∧ AreNames (done ++ [part]) names' := by
    rintro done part _ c l m behind ⟨ls, rfl, hls, rfl⟩ hc hl hm rfl
    refine ⟨_, (sole_skip hc hl).bind ((sole_token rfl (List.mem_singleton.2 hm)).bind (sole_pure _ _)),
      ls ++ [m], ?_, ?_, ?_⟩
    · simp
    · rw [List.forall_mem_append, List.forall_mem_singleton]
      exact ⟨hls, hm⟩
    · simp
  have hone : AreNames [head] [.token l.token] :=
    ⟨[l], rfl, List.forall_mem_singleton.2 hl, by rw [← htext]; rfl⟩
  obtain ⟨names, hstrides, hnames⟩ := strides_dots hstep h hone hbehind (ho.passes hfirst)
  have hchain : (chain nameStep [.token l.token]).Only x names d [.dot] :=
    (only_strides (fun _ _ hy => absurd hy.choose_spec.2 List.not_mem_nil) hstrides ((blocked_skip hd).bind _)).2
  have hparts : (do
      let first ← token [.identifier]
      chain nameStep [first] : Reader (List Tree)).Only c names d [.dot] := hhead.bind_only hchain
  obtain ⟨span, hname⟩ := Only.rule .qualifiedName hparts
  exact ⟨_, hname, builds_name hnames span⟩

/-! ### Operands -/

/-- The tokens that end a name or a path here: a closing parenthesis, and the dots within. -/
def pathEnds : List Terminal := [.dot, .rightParen]

/-- An operand that ends so is an expression. -/
theorem only_expression_of_operand (h : (postfixLevel (expression n)).Only c t d [.dot])
    (hc : c.HeadIn [.identifier, .leftParen, .leftBrace]) (hd : d.HeadIn [.rightParen]) :
    (expression (n + 1)).Only c t d [.dot] := by
  have hends : d.HeadIn pathEnds := hd.mono (by decide)
  have hunary : (unaryLevel (expression n)).Only c t d [.dot] := by
    have hminus : (token [.minus]).Blocked c := blocked_token (avoids hc (by decide))
    have hsigns : ∀ k, (signs (postfixLevel (expression n)) k).Only c t d [.dot] := by
      intro k
      cases k with
      | zero => exact h
      | succ k => exact h.either_blocked ((hminus.bind _).rule _)
    exact ⟨(hsigns _).ends, (hsigns _).all⟩
  have hjoined : ∀ {operand : Reader Tree} {operators : List Terminal}, operand.Only c t d [.dot] →
      (∀ k ∈ pathEnds, k ∉ operators) → (leftJoined operand operators).Only c t d [.dot] :=
    fun hoperand hoperators => hoperand.chained (by decide) hends fun _ _ hx =>
      operatorStep_blocked (avoids hx hoperators)
  have hsum : (sumLevel (expression n)).Only c t d [.dot] :=
    hjoined (hjoined (hjoined hunary (by decide)) (by decide)) (by decide)
  exact only_expressionLevel_of_sum pathEnds hsum (by decide) (by decide) hends (avoids hc (by decide))

/-- Where nothing follows an operand, its tree is handed on. -/
theorem last_sole (e : Reader Tree) {left : Tree × Bool} (h : (postfixStep e left).Blocked c) :
    (do
      let (t, _) ← chain (postfixStep e) left
      return t : Reader Tree).Sole c left.1 c :=
  (sole_chain h).bind (sole_pure _ _)

/-- **A dotted name is an expression.** The shorter names in it are none, since a dot behind a name belongs to
it. -/
theorem only_dotted (h : Dots rest w) (hc : c.Passes (l :: w) d) (ho : c.Ordered) (hu : d.Undotted)
    (hl : l.kind = .identifier) (htext : l.text = head) (hd : d.HeadIn [.rightParen]) (n : ℕ) :
    ∃ t, (expression (n + 1)).Only c t d [.dot] ∧ t.Builds (.name (dotted head rest)) := by
  have hundotted : c.Undotted := hc.undotted
    (List.forall_mem_cons.2 ⟨by rw [hl]; decide, dots_undotted h⟩) hu
  have hhead : c.HeadIn [.identifier] := Cursor.headIn_of_rest hc.rest (List.mem_singleton.2 hl)
  obtain ⟨t, hname, hbuilds⟩ := only_qualifiedName h hc ho hl htext (avoids_one hd (by decide))
  have hprimary : (primary (expression n)).Blocked c :=
    primary_blocked (yields_expression n) hundotted (avoids hhead (by decide))
  have hnamed : (do return (← qualifiedName, true) : Reader (Tree × Bool)).Only c (t, true) d [.dot] :=
    hname.map fun t => (t, true)
  have hfirst : (either (do return (← qualifiedName, true))
      (do return (← primary (expression n), false)) : Reader (Tree × Bool)).Only c (t, true) d [.dot] :=
    hnamed.either_blocked (hprimary.bind _)
  have hpostfix : (postfixLevel (expression n)).Only c t d [.dot] := by
    have hend : (postfixStep (expression n) (t, true)).Blocked d :=
      postfixStep_blocked (avoids hd (by decide)) (.inl rfl)
    refine hfirst.bind_of_mem ((last_sole _ hend).only _) (List.Subset.refl _) le_rfl fun y hy hbefore => ?_
    -- each reading of a name is marked as one
    have hmarked : y.1.2 = true := by
      rcases Readings.of_mem_union hy with hy | hy
      · obtain ⟨z, -, hz⟩ := Readings.of_mem_bind hy
        rw [List.mem_singleton.1 hz]
      · rw [hprimary.bind _] at hy
        exact absurd hy List.not_mem_nil
    exact (last_sole _ (postfixStep_blocked (avoids hbefore.headIn (by decide)) (.inl hmarked))).stays
  exact ⟨t, only_expression_of_operand hpostfix (hhead.mono (by decide)) hd, hbuilds⟩

/-! ### Paths -/

theorem builds_path {e : Expr} {m : Lexeme} (h : t.Builds e) (hm : m.kind = .identifier) (span : Option Span) :
    (Tree.node .pathExpression span [t, .token m.token]).Builds (.path e m.text) := by
  intro source
  have hname : (Tree.artifacts source [.token m.token]).outcome = .ok [.text m.text] :=
    artifacts_identifiers (List.forall_mem_singleton.2 hm)
  exact artifacts_node_ok (by decide) (artifacts_cons_ok (h source) hname) fun _ _ => rfl

/-- A dot and a name behind an operand that is no plain name. -/
theorem sole_pathStep {m : Lexeme} {behind : List Lexeme} (hc : c.rest = l :: m :: behind) (hl : l.kind = .dot)
    (hm : m.kind = .identifier) : (postfixStep e (t, false)).Sole c
      (.node .pathExpression (t.span.map fun s => ⟨s.start, m.stop⟩) [t, .token m.token], false)
      ⟨m.stop, behind⟩ := by
  have hhead : c.HeadIn [.dot] := Cursor.headIn_of_rest hc (List.mem_singleton.2 hl)
  have hname : (do
      skip .dot
      return [← token [.identifier]] : Reader (List Tree)).Sole c [.token m.token] ⟨m.stop, behind⟩ :=
    (sole_skip hc hl).bind ((sole_token rfl (List.mem_singleton.2 hm)).bind (sole_pure _ _))
  have hposition : position.Sole ⟨m.stop, behind⟩ m.stop ⟨m.stop, behind⟩ := rfl
  have hpath : (do
      let t ← extend .pathExpression t (do
        skip .dot
        return [← token [.identifier]])
      return (t, false) : Reader (Tree × Bool)).Sole c
        (.node .pathExpression (t.span.map fun s => ⟨s.start, m.stop⟩) [t, .token m.token], false)
        ⟨m.stop, behind⟩ :=
    Sole.bind (hname.bind (hposition.bind (sole_pure _ _))) (sole_pure _ _)
  refine Sole.oneOf [_, _] [] hpath ?_ (List.forall_mem_nil _)
  rw [List.forall_mem_cons, List.forall_mem_singleton]
  have hparameters : (parameters e).Blocked c :=
    ((blocked_skip (avoids_one hhead (by decide))).bind _).rule _
  exact ⟨(((blocked_skip (avoids_one hhead (by decide))).bind _).extend _ _).bind _,
    ((hparameters.bind _).extend _ _).bind _⟩

/-- **Paths behind a primary expression are an expression.** What each path keeps with the names before it is kept
with all of them in the end. -/
theorem only_paths {P : List String → Tree → Prop}
    (hpath : ∀ {done : List String} {t : Tree} {m : Lexeme} (span : Option Span), P done t → m.kind = .identifier →
      P (done ++ [m.text]) (.node .pathExpression span [t, .token m.token]))
    (h : Dots rest w) (hprimary : (primary (expression n)).Sole c t x) (hstart : P [] t)
    (hhead : c.HeadIn [.leftParen, .leftBrace]) (hbehind : x.Passes w d) (ho : x.Ordered)
    (hd : d.HeadIn [.rightParen]) : ∃ u, (expression (n + 1)).Only c u d [.dot] ∧ P rest u := by
  have hstep : ∀ {done part} {left : Tree × Bool} {c : Cursor} {l m : Lexeme} {behind : List Lexeme},
      left.2 = false ∧ P done left.1 → c.rest = l :: m :: behind → l.kind = .dot → m.kind = .identifier →
        m.text = part → ∃ left', (postfixStep (expression n) left).Sole c left' ⟨m.stop, behind⟩ ∧
          (left'.2 = false ∧ P (done ++ [part]) left'.1) := by
    rintro done part ⟨u, mark⟩ c l m behind ⟨rfl, hu⟩ hc hl hm rfl
    exact ⟨_, sole_pathStep hc hl hm, rfl, hpath _ hu hm⟩
  have htarget : (t, false).2 = false ∧ P [] (t, false).1 := ⟨rfl, hstart⟩
  obtain ⟨⟨u, mark⟩, hstrides, rfl, hbuilt⟩ := strides_dots
    (P := fun parts (left : Tree × Bool) => left.2 = false ∧ P parts left.1) hstep h htarget hbehind ho
  have hblocked : (postfixStep (expression n) (u, false)).Blocked d :=
    postfixStep_blocked (avoids hd (by decide)) (.inr (avoids_one hd (by decide)))
  have hchain : (chain (postfixStep (expression n)) (t, false)).Only x (u, false) d [.dot] :=
    (only_strides (fun _ _ hy => absurd hy.choose_spec.2 List.not_mem_nil) hstrides hblocked).2
  have hnone : qualifiedName.Blocked c :=
    ((blocked_token (avoids hhead (by decide))).bind _).rule _
  have hfirst : (either (do return (← qualifiedName, true))
      (do return (← primary (expression n), false)) : Reader (Tree × Bool)).Sole c (t, false) x :=
    Sole.either_right (hnone.bind _) (Sole.bind hprimary (sole_pure _ _))
  have hlast : (do
      let (t, _) ← chain (postfixStep (expression n)) (t, false)
      return t : Reader Tree).Only x u d [.dot] := hchain.map Prod.fst
  have hpostfix : (postfixLevel (expression n)).Only c u d [.dot] := hfirst.bind_only hlast
  exact ⟨u, only_expression_of_operand hpostfix (hhead.mono (by decide)) hd, hbuilt⟩

/-- **Paths behind a name in parentheses are an expression.** -/
theorem only_pathed (h : Dots rest w) (hc : c.Passes (p :: l :: q :: w) d) (ho : c.Ordered) (hu : d.Undotted)
    (hp : p.kind = .leftParen) (hl : l.kind = .identifier) (htext : l.text = head) (hq : q.kind = .rightParen)
    (hd : d.HeadIn [.rightParen]) (n : ℕ) : ∃ t, (expression (n + 2)).Only c t d [.dot] ∧
      t.Builds ((Expr.name head).paths rest) := by
  have hundotted : c.Undotted := by
    refine hc.undotted (List.forall_mem_cons.2 ⟨by rw [hp]; decide, List.forall_mem_cons.2 ⟨by rw [hl]; decide,
      List.forall_mem_cons.2 ⟨by rw [hq]; decide, dots_undotted h⟩⟩⟩) hu
  have hhead : c.HeadIn [.leftParen] := Cursor.headIn_of_rest hc.rest (List.mem_singleton.2 hp)
  obtain ⟨x, hopening, hbehind⟩ := Cursor.Passes.split (u := [p]) hc
  obtain ⟨y, hname, hbehind⟩ := Cursor.Passes.split (u := [l]) hbehind
  obtain ⟨z, hclosing, hbehind⟩ := Cursor.Passes.split (u := [q]) hbehind
  have hy : y.rest = q :: z.rest := hclosing.rest
  have hz : z = ⟨q.stop, z.rest⟩ := Cursor.Passes.eq_mk (w := []) hclosing
  have hx : x = ⟨p.stop, x.rest⟩ := Cursor.Passes.eq_mk (w := []) hopening
  have hox := ho.passes hopening
  -- the name in parentheses
  obtain ⟨t, ht, hbuilds⟩ := only_dotted .nil hname hox ((hundotted.passes hopening).passes hname) hl htext
    (Cursor.headIn_of_rest hy (List.mem_singleton.2 hq)) n
  have hplain : dotted head [] = head := by simp [dotted]
  rw [hplain] at hbuilds
  rw [hx] at ht
  obtain ⟨span, hspan⟩ := sole_parenthesized hopening.rest hp ht (by decide) (by decide) hy hq
  rw [← hz] at hspan
  have hprimary : (primary (expression (n + 1))).Sole c (.node .parenthesizedExpression span [t]) z :=
    sole_primary_parenthesized (yields_expression _) hundotted hhead hspan
  -- the paths behind it
  have hpath : ∀ {done : List String} {t : Tree} {m : Lexeme} (span : Option Span),
      t.Builds ((Expr.name head).paths done) → m.kind = .identifier →
        (Tree.node .pathExpression span [t, .token m.token]).Builds ((Expr.name head).paths (done ++ [m.text])) := by
    intro done t m span ht hm
    have hlonger := builds_path ht hm span
    unfold Expr.paths at hlonger ⊢
    rwa [List.foldl_append]
  exact only_paths (P := fun parts t => t.Builds ((Expr.name head).paths parts)) hpath h hprimary
    (fun source => artifacts_node_ok (by decide) (hbuilds source) fun _ _ => rfl) (hhead.mono (by decide)) hbehind
    ((hox.passes hname).passes hclosing) hd

end Readings

/-! ## Sources -/

section Sources

open Lexer

variable {registry bindings : Fields} {head : String} {rest : List String}

/-- **A dotted name is read as one name.** -/
theorem parse_dotted (h : ∀ s ∈ head :: rest, IsName s) : ∃ t, parse false (dotted head rest) = .ok t ∧
    (t.build (dotted head rest)).outcome = .ok (some (.expr (.list [.name (dotted head rest)]))) := by
  obtain ⟨l, w, htokens, hl, htext, hdots⟩ := tokens_dotted h
  obtain ⟨t, ht, hbuilds⟩ := only_dotted hdots (passes_all (l :: w)) htokens.ordered (List.forall_mem_nil _) hl htext
    (fun k hk => absurd hk (Option.not_mem_none k)) (l :: w).length
  exact parse_of_built htokens ht (by decide) (hbuilds _)

/-- **Paths behind a name in parentheses are read as such.** -/
theorem parse_pathed (h : ∀ s ∈ head :: rest, IsName s) : ∃ t, parse false (pathed head rest) = .ok t ∧
    (t.build (pathed head rest)).outcome = .ok (some (.expr (.list [(Expr.name head).paths rest]))) := by
  obtain ⟨p, l, q, w, htokens, hp, hl, htext, hq, hdots⟩ := tokens_pathed h
  obtain ⟨t, ht, hbuilds⟩ := only_pathed hdots (passes_all (p :: l :: q :: w)) htokens.ordered
    (List.forall_mem_nil _) hp hl htext hq (fun k hk => absurd hk (Option.not_mem_none k)) (w.length + 2)
  exact parse_of_built htokens ht (by decide) (hbuilds _)

/-- A source that is read as one expression has its value. -/
theorem evaluate_of_value {source : String} {e : Expr} {v : Value}
    (h : ∃ t, parse false source = .ok t ∧ (t.build source).outcome = .ok (some (.expr (.list [e]))))
    (he : e.eval registry (.ofFields bindings) = pure v) : evaluate ⟨registry, 0⟩ source bindings = pure v := by
  rw [evaluate_of_lone h, he, action_pure]

theorem undotted_ofFields (h : ∀ p ∈ bindings, '.' ∉ p.1.toList) : (Scope.ofFields bindings).Undotted :=
  List.forall_mem_singleton.2 h

end Sources

/-! ## The two ways -/

/-- **Dotted names and paths agree.** In a scope without dots in its keys, a dotted name whose first part is not
registered leads through the fields of the value of this part, and so do paths behind the first part in
parentheses; lists are gone through element by element, and where there is no value there is null. Only what is
registered under the whole name goes before. The same holds of the sources that spell the two. -/
theorem dotted_name_agrees_with_paths (registry : Fields) (head : String) (rest : List String)
    (hhead : Unregistered registry head) :
    (∀ scope : Scope, AreParts (head :: rest) → scope.Undotted →
      ((Expr.name head).paths rest).eval registry scope = pure ((scope.get head).walk rest) ∧
      (Unregistered registry (dotted head rest) →
        (Expr.name (dotted head rest)).eval registry scope = ((Expr.name head).paths rest).eval registry scope) ∧
      ∀ v, registry.get? (dotted head rest) = some v → v ≠ .null →
        (Expr.name (dotted head rest)).eval registry scope = pure v) ∧
    ∀ bindings : Fields, (∀ s ∈ head :: rest, Lexer.IsName s) → (∀ p ∈ bindings, '.' ∉ p.1.toList) →
      evaluate ⟨registry, 0⟩ (pathed head rest) bindings =
        pure (((Scope.ofFields bindings).get head).walk rest) ∧
      (Unregistered registry (dotted head rest) →
        evaluate ⟨registry, 0⟩ (dotted head rest) bindings = evaluate ⟨registry, 0⟩ (pathed head rest) bindings) ∧
      ∀ v, registry.get? (dotted head rest) = some v → v ≠ .null →
        evaluate ⟨registry, 0⟩ (dotted head rest) bindings = pure v := by
  have hpaths : ∀ scope : Scope,
      ((Expr.name head).paths rest).eval registry scope = pure ((scope.resolve head).walk rest) := by
    intro scope
    rw [eval_paths, eval_unregistered hhead, pure_bind]
  have hfirst : ∀ scope : Scope, AreParts (head :: rest) → scope.Undotted → scope.resolve head = scope.get head := by
    intro scope hparts hscope
    have hone : scope.resolve (dotted head []) = (scope.get head).walk [] :=
      resolve_undotted (List.forall_mem_singleton.2 (hparts head List.mem_cons_self)) hscope
    have hplain : dotted head [] = head := by simp [dotted]
    rwa [hplain] at hone
  refine ⟨fun scope hparts hscope => ?_, fun bindings hnames hbindings => ?_⟩
  · rw [hpaths, hfirst scope hparts hscope]
    refine ⟨rfl, fun hwhole => ?_, fun v hv hne => eval_registered hv hne scope⟩
    rw [eval_unregistered hwhole, resolve_undotted hparts hscope]
  · have hparts : AreParts (head :: rest) := fun s hs => (hnames s hs).isPart
    have hscope := undotted_ofFields hbindings
    have hpathed : evaluate ⟨registry, 0⟩ (pathed head rest) bindings =
        pure (((Scope.ofFields bindings).get head).walk rest) := by
      rw [← hfirst _ hparts hscope]
      exact evaluate_of_value (parse_pathed hnames) (hpaths _)
    refine ⟨hpathed, fun hwhole => ?_, fun v hv hne => ?_⟩
    · rw [hpathed, ← resolve_undotted hparts hscope]
      exact evaluate_of_value (parse_dotted hnames) (eval_unregistered hwhole _)
    · exact evaluate_of_value (parse_dotted hnames) (eval_registered hv hne _)

theorem isName_a : Lexer.IsName "a" := ⟨by decide, List.all_eq_true.1 (by decide), by decide⟩

theorem isName_b : Lexer.IsName "b" := ⟨by decide, List.all_eq_true.1 (by decide), by decide⟩

theorem path_over_mixed_list : Unregistered standardRegistry "a" ∧
    evaluate .standard "(a).b" [("a", .list [.context [("b", .whole 2)], .null])] =
      pure (.list [.whole 2, .null]) ∧
    evaluate .standard "a.b" [("a", .list [.context [("b", .whole 2)], .null])] =
      evaluate .standard "(a).b" [("a", .list [.context [("b", .whole 2)], .null])] := by
  have hnames : ∀ s ∈ ["a", "b"], Lexer.IsName s :=
    List.forall_mem_cons.2 ⟨isName_a, List.forall_mem_singleton.2 isName_b⟩
  have hhead : Unregistered standardRegistry "a" := .inl (by decide)
  have hagree := (dotted_name_agrees_with_paths standardRegistry "a" ["b"] hhead).2
    [("a", .list [.context [("b", .whole 2)], .null])] hnames (List.forall_mem_singleton.2 (by decide))
  exact ⟨hhead, hagree.1, hagree.2.1 (.inl (by decide))⟩

/-- A name that is registered with its dots goes before the field of a value, for one of the two ways only. -/
theorem registered_whole_name_wins :
    Unregistered [("a.b", .whole 1)] "a" ∧
      (∀ p ∈ [("a", Value.context [("b", .whole 2)])], '.' ∉ p.1.toList) ∧
      evaluate ⟨[("a.b", .whole 1)], 0⟩ "a.b" [("a", .context [("b", .whole 2)])] = pure (.whole 1) ∧
      evaluate ⟨[("a.b", .whole 1)], 0⟩ "(a).b" [("a", .context [("b", .whole 2)])] = pure (.whole 2) := by
  have hnames : ∀ s ∈ ["a", "b"], Lexer.IsName s :=
    List.forall_mem_cons.2 ⟨isName_a, List.forall_mem_singleton.2 isName_b⟩
  refine ⟨.inl (by decide), List.forall_mem_singleton.2 (by decide), ?_, ?_⟩
  · exact evaluate_of_value (parse_dotted hnames) (eval_registered (by rfl) (by simp [Value.whole]) _)
  · have hvalue : ((Expr.name "a").paths ["b"]).eval [("a.b", .whole 1)]
        (.ofFields [("a", .context [("b", .whole 2)])]) = pure (.whole 2) := by
      rw [eval_paths, eval_unregistered (.inl (by decide))]
      rfl
    have hsource : pathed "a" ["b"] = "(a).b" := by decide
    rw [← hsource]
    exact evaluate_of_value (parse_pathed hnames) hvalue

end Criterion

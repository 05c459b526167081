import Criterion.Proofs.Reading
import Criterion.Syntax.Grammar

/-!
# What is read is derived

Each reader of the grammar only yields trees of derivations: the tokens that a reading spans derive
from the reader's rule and leave its tree. The readers of inner expressions are assumed to, and the
knot is tied by induction on the depth.

* `Nonterminal.Tells`: a tree is left by a derivation of some tokens.
* `yields_leftChain`: a chain of steps to the right is a derivation that grows to the left.
* `yields_expression`, `yields_expressions`, `yields_unaryTests`: the readers of whole sources.
-/

namespace Criterion

open Reader

/-- The tokens derive from the rule and leave the tree. -/
def Nonterminal.Tells (n : Nonterminal) (w : List Lexeme) (t : Tree) : Prop := n.Reads w [t]

variable {n m : Nonterminal} {rule : Rule} {keeps : Bool} {body rest : List Symbol}
  {u v w : List Lexeme} {us ts : List Tree} {t : Tree}

/-! ## Derivations of single trees -/

theorem Nonterminal.Reads.derives (h : m.Reads v us) (hd : Derives keeps rest w ts) :
    Derives keeps (.rule m :: rest) (v ++ w) (us ++ ts) := by
  obtain ⟨p, hp, us, hus, rfl⟩ := h
  exact .rule hp hus hd

theorem Nonterminal.Tells.derives (h : m.Tells v t) (hd : Derives keeps rest w ts) :
    Derives keeps (.rule m :: rest) (v ++ w) (t :: ts) := Nonterminal.Reads.derives h hd

theorem Nonterminal.Tells.derives_last (h : m.Tells v t) : Derives keeps [.rule m] v [t] := by
  have hd : Derives keeps [.rule m] (v ++ []) (t :: []) := h.derives .nil
  rwa [List.append_nil] at hd

theorem Nonterminal.Tells.ne_nil (h : n.Tells w t) : w ≠ [] := Nonterminal.Reads.ne_nil h

theorem Nonterminal.Tells.span (h : n.Tells w t) (hn : n.isInlined = false) : t.span = spanOf w := by
  obtain ⟨_, hts, hspan⟩ := Nonterminal.Reads.single h hn
  cases hts
  exact hspan

/-- A production of a rule with a node of its own. -/
theorem tells_node (hs : n.shaping = .node rule keeps) (hp : Nonterminal.plain body ∈ n.productions)
    (hd : Derives keeps body w ts) : n.Tells w (.node rule (spanOf w) ts) := by
  refine ⟨_, hp, ts, ?_, ?_⟩
  · simpa [Nonterminal.keeps, Nonterminal.plain, hs] using hd
  · simp [Nonterminal.shape, Nonterminal.plain, hs]

/-- A production that the tree shows under another name. -/
theorem tells_renamed (hk : n.keeps = keeps) (hp : ⟨body, some rule⟩ ∈ n.productions)
    (hd : Derives keeps body w ts) : n.Tells w (.node rule (spanOf w) ts) :=
  ⟨_, hp, ts, hk ▸ hd, rfl⟩

/-- A production that gives way to its only part. -/
theorem tells_single (hs : n.shaping = .single rule) (hp : Nonterminal.plain body ∈ n.productions)
    (hd : Derives false body w [t]) : n.Tells w t := by
  refine ⟨_, hp, [t], ?_, ?_⟩
  · simpa [Nonterminal.keeps, Nonterminal.plain, hs] using hd
  · simp [Nonterminal.shape, Nonterminal.plain, hs]

/-- A rule that may be another rule. -/
theorem Nonterminal.Tells.up (h : m.Tells w t) (hs : n.shaping = .single rule)
    (hp : Nonterminal.plain [.rule m] ∈ n.productions) : n.Tells w t :=
  tells_single hs hp h.derives_last

/-- Items with commas between them, before what follows them in a production. -/
theorem Reader.Listed.derives_append (h : Listed n.Tells u us) :
    ∀ {w ts}, Derives false (.many [Nonterminal.word .comma, .rule n] :: rest) w ts →
      Derives false (Nonterminal.commas n ++ rest) (u ++ w) (us ++ ts) := by
  induction h with
  | one ha => exact fun hd => ha.derives hd
  | snoc _ hl ha ih =>
    intro w ts hd
    simpa using ih (.again (.dropped hl (ha.derives hd)))

theorem Reader.Listed.derives (h : Listed n.Tells u us) :
    Derives false (Nonterminal.commas n) u us := by
  have hd : Derives false (Nonterminal.commas n ++ []) (u ++ []) (us ++ []) :=
    h.derives_append (.done .nil)
  rwa [List.append_nil, List.append_nil, List.append_nil] at hd

/-! ## Rules -/

theorem yields_rule {parts : Reader (List Tree)} {P : List Lexeme → List Tree → Prop}
    (h : parts.Yields P) (hne : ∀ w ts, P w ts → w ≠ []) :
    (Grammar.rule rule parts).Yields fun w t => ∃ ts, P w ts ∧ t = .node rule (spanOf w) ts := by
  have hparts : (do return (rule, ← parts) : Reader (Rule × List Tree)).Yields fun w x =>
      x.1 = rule ∧ P w x.2 :=
    h.bind fun u ts hP => yields_pure ⟨rfl, by simpa using hP⟩
  refine (hparts.node fun w x hx => hne w x.2 hx.2).mono ?_
  rintro w t ⟨_, ts, ⟨rfl, hP⟩, rfl⟩
  exact ⟨ts, hP, rfl⟩

/-- The reader of a rule that has one production. -/
theorem yields_rule_node {parts : Reader (List Tree)} (hs : n.shaping = .node rule keeps)
    (hp : Nonterminal.plain body ∈ n.productions) (h : parts.Yields (Derives keeps body)) :
    (Grammar.rule rule parts).Yields n.Tells := by
  refine (yields_rule h fun w ts hd => hd.ne_nil (productions_required n _ hp)).mono ?_
  rintro w t ⟨ts, hd, rfl⟩
  exact tells_node hs hp hd

/-- Parts of one of several rules. -/
def Made (ns : List Nonterminal) (w : List Lexeme) (x : Rule × List Tree) : Prop :=
  ∃ n ∈ ns, ∃ keeps body, n.shaping = .node x.1 keeps ∧ Nonterminal.plain body ∈ n.productions ∧
    Derives keeps body w x.2

theorem yields_made {parts : Reader (Rule × List Tree)} {ns : List Nonterminal}
    (h : parts.Yields (Made ns)) : (node parts).Yields fun w t => ∃ n ∈ ns, n.Tells w t := by
  refine (h.node ?_).mono ?_
  · rintro w x ⟨n, -, _, body, -, hp, hd⟩
    exact hd.ne_nil (productions_required n _ hp)
  · rintro w t ⟨r, ts, ⟨n, hn, _, body, hs, hp, hd⟩, rfl⟩
    exact ⟨n, hn, tells_node hs hp hd⟩

/-- A production that begins with a tree that was read before. -/
theorem yields_extend {parts : Reader (List Tree)} {tail : List Symbol} {left : Tree}
    (hm : m.isInlined = false) (hk : n.keeps = false)
    (hp : ⟨.rule m :: tail, some rule⟩ ∈ n.productions) (ht : tail.any Symbol.isRequired = true)
    (h : parts.Yields (Derives false tail)) (hleft : m.Tells u left) :
    (extend rule left parts).Yields fun v t => n.Tells (u ++ v) t := by
  refine (h.extend (fun w ts hd => hd.ne_nil ht) (hleft.span hm) hleft.ne_nil).mono ?_
  rintro v t ⟨ts, hd, rfl⟩
  exact tells_renamed hk hp (hleft.derives hd)

/-- **A chain of steps to the right is a derivation that grows to the left.** -/
theorem yields_leftChain {parts : Reader (List Tree)} {tail : List Symbol} {start : Tree}
    (hn : n.isInlined = false) (hk : n.keeps = false)
    (hp : ⟨.rule n :: tail, some rule⟩ ∈ n.productions) (ht : tail.any Symbol.isRequired = true)
    (h : parts.Yields (Derives false tail)) (hstart : n.Tells u start) :
    (chain (fun left => extend rule left parts) start).Yields fun v t => n.Tells (u ++ v) t :=
  yields_chain (fun _ _ hleft => yields_extend hn hk hp ht h hleft) hstart

namespace Grammar

theorem yields_literal : literal.Yields Nonterminal.literal.Tells := by
  refine Yields.mono yields_token ?_
  rintro _ _ ⟨l, rfl, hl, rfl⟩
  exact tells_single rfl (.head _) (.named hl .nil)

/-- A bracket that opens an interval. -/
theorem tells_intervalStart {l : Lexeme} (hl : l.kind ∈ [.leftParen, .rightBracket, .leftBracket]) :
    Nonterminal.intervalStart.Tells [l] (tokenRule .intervalStart (.token l.token)) :=
  tells_node rfl (.head _) (.kept hl .nil)

theorem tells_intervalEnd {l : Lexeme} (hl : l.kind ∈ [.rightParen, .leftBracket, .rightBracket]) :
    Nonterminal.intervalEnd.Tells [l] (tokenRule .intervalEnd (.token l.token)) :=
  tells_node rfl (.head _) (.kept hl .nil)

variable {e : Reader Tree}

theorem yields_intervalRest (he : e.Yields Nonterminal.expression.Tells) {l : Lexeme} {start : Tree}
    (hl : l.kind ∈ [.leftParen, .rightBracket, .leftBracket])
    (hstart : Nonterminal.expression.Tells u start) {ns : List Nonterminal}
    (hns : Nonterminal.interval ∈ ns) :
    (intervalRest e (.token l.token) start).Yields fun v x => Made ns (l :: u ++ v) x := by
  refine yields_skip_bind fun d hd => he.bind fun v stop hstop => yields_token_bind fun k hk =>
    yields_pure ?_
  refine ⟨.interval, hns, false, _, rfl, .head _, ?_⟩
  exact (tells_intervalStart hl).derives (hstart.derives
    (.dropped hd (hstop.derives (tells_intervalEnd hk).derives_last)))

theorem yields_bracketed (he : e.Yields Nonterminal.expression.Tells) :
    (bracketed e).Yields fun w t => ∃ n ∈ [Nonterminal.list, .interval], n.Tells w t := by
  refine yields_made (yields_token_bind fun l hl => .either ?_ ?_)
  · refine yields_skip_bind fun k hk => yields_pure ?_
    exact ⟨.list, .head _, false, _, rfl, .head _, .dropped hl (.absent (.dropped hk .nil))⟩
  refine he.bind fun u first hfirst => .either ?_ ?_
  · refine (yields_chain (I := Listed Nonterminal.expression.Tells) (fun w items hitems => ?_)
      (.one hfirst)).bind fun v items hitems => yields_skip_bind fun k hk => yields_pure ?_
    · refine yields_skip_bind fun k hk => he.bind fun v next hnext => yields_pure ?_
      rw [List.append_nil]
      exact .snoc hitems hk hnext
    · refine ⟨.list, .head _, false, _, rfl, .head _, ?_⟩
      have hd := hitems.derives_append (.done (.dropped hk .nil))
      simpa [Nonterminal.word] using Derives.dropped hl (.present hd)
  · exact yields_intervalRest he (by simp_all) hfirst (by simp)

theorem yields_parenthesized (he : e.Yields Nonterminal.expression.Tells) :
    (parenthesized e).Yields fun w t =>
      ∃ n ∈ [Nonterminal.interval, .parenthesizedExpression], n.Tells w t := by
  refine yields_made (yields_token_bind fun l hl => he.bind fun u first hfirst => .either ?_ ?_)
  · exact yields_intervalRest he (by simp_all) hfirst (by simp)
  · refine yields_skip_bind fun k hk => yields_pure ?_
    exact ⟨.parenthesizedExpression, by simp, false, _, rfl, .head _,
      .dropped hl (hfirst.derives (.dropped hk .nil))⟩

theorem yields_reversed (he : e.Yields Nonterminal.expression.Tells) :
    (reversed e).Yields fun w t => ∃ n ∈ [Nonterminal.interval], n.Tells w t :=
  yields_made (yields_token_bind fun _ hl => he.bind fun _ _ hfirst =>
    yields_intervalRest he (by simp_all) hfirst (by simp))

theorem yields_entry (he : e.Yields Nonterminal.expression.Tells) :
    (entry e).Yields Nonterminal.contextEntry.Tells := by
  refine yields_rule_node rfl (.head _) (yields_token_bind fun l hl => yields_skip_bind fun k hk =>
    he.bind fun u value hvalue => yields_pure ?_)
  have hkey : Nonterminal.key.Tells [l] (tokenRule .key (.token l.token)) :=
    tells_node rfl (.head _) (.named hl .nil)
  simpa [Nonterminal.word] using hkey.derives (.dropped hk hvalue.derives_last)

theorem yields_context (he : e.Yields Nonterminal.expression.Tells) :
    (context e).Yields Nonterminal.context.Tells := by
  have hentries : (either (separated (entry e)) (pure [])).Yields fun u entries =>
      ∀ {w ts}, Derives false [Nonterminal.word .rightBrace] w ts →
        Derives false [.optional (Nonterminal.commas .contextEntry), Nonterminal.word .rightBrace]
          (u ++ w) (entries ++ ts) :=
    ((yields_entry he).separated.mono fun u entries h _ _ hd =>
      .present (h.derives_append (.done hd))).either (yields_pure fun hd => .absent hd)
  refine yields_rule_node rfl (.head _) (yields_skip_bind fun l hl => hentries.bind
    fun u entries h => yields_skip_bind fun k hk => yields_pure ?_)
  simpa [Nonterminal.word] using Derives.dropped hl (h (.dropped hk .nil))

theorem yields_parameters (he : e.Yields Nonterminal.expression.Tells) :
    (parameters e).Yields Nonterminal.parameters.Tells := by
  have hpositional : (rule .positionalParameters (separated e)).Yields
      Nonterminal.positionalParameters.Tells :=
    yields_rule_node rfl (.head _) (he.separated.mono fun _ _ h => h.derives)
  have harguments : (either (do return [← rule .positionalParameters (separated e)])
      (pure [])).Yields fun u arguments =>
        ∀ {w ts}, Derives false [Nonterminal.word .rightParen] w ts →
          Derives false [.optional [.rule .positionalParameters], Nonterminal.word .rightParen]
            (u ++ w) (arguments ++ ts) := by
    refine .either (hpositional.bind fun u t h => yields_pure fun {w ts} hd => ?_)
      (yields_pure fun hd => .absent hd)
    simpa using Derives.present (h.derives hd)
  refine yields_rule_node rfl (.head _) (yields_skip_bind fun l hl => harguments.bind
    fun u arguments h => yields_skip_bind fun k hk => yields_pure ?_)
  simpa [Nonterminal.word] using Derives.dropped hl (h (.dropped hk .nil))

theorem yields_primary (he : e.Yields Nonterminal.expression.Tells) :
    (primary e).Yields Nonterminal.primary.Tells := by
  have up : ∀ {n w t}, Nonterminal.plain [.rule n] ∈ Nonterminal.primary.productions →
      n.Tells w t → Nonterminal.primary.Tells w t := fun hp h => h.up rfl hp
  refine yields_oneOf ?_
  simp only [List.forall_mem_cons, List.not_mem_nil, false_implies, implies_true, and_true]
  refine ⟨?_, ?_, ?_, ?_, ?_, ?_, ?_, ?_⟩
  · exact yields_literal.mono fun _ _ => up (by simp [Nonterminal.productions])
  · refine (yields_bracketed he).mono fun w t ⟨n, hn, h⟩ => up ?_ h
    revert n; simp [Nonterminal.productions]
  · exact (yields_context he).mono fun _ _ => up (by simp [Nonterminal.productions])
  · refine (yields_parenthesized he).mono fun w t ⟨n, hn, h⟩ => up ?_ h
    revert n; simp [Nonterminal.productions]
  · refine (yields_reversed he).mono fun w t ⟨n, hn, h⟩ => up ?_ h
    revert n; simp [Nonterminal.productions]
  · have h : (rule .inputValue (do skip .question; return [])).Yields Nonterminal.inputValue.Tells :=
      yields_rule_node rfl (.head _) (yields_skip_bind fun l hl => yields_pure (.dropped hl .nil))
    exact h.mono fun _ _ => up (by simp [Nonterminal.productions])
  · have h : (rule .specialFunctionName (do return [← token [.specialName]])).Yields
        Nonterminal.specialFunctionName.Tells :=
      yields_rule_node rfl (.head _) (yields_token_bind fun l hl => yields_pure (.named hl .nil))
    exact h.mono fun _ _ => up (by simp [Nonterminal.productions])
  · have h : (rule .dateTimeConstructor (do
        let name ← token [.dateAndTime]
        return [name, ← parameters e])).Yields Nonterminal.dateTimeConstructor.Tells := by
      refine yields_rule_node rfl (.head _) (yields_token_bind fun l hl =>
        (yields_parameters he).bind fun u t ht => yields_pure ?_)
      simpa using Derives.named hl ht.derives_last
    exact h.mono fun _ _ => up (by simp [Nonterminal.productions])

/-! ## Operators -/

/-- Names with dots between them, which more names may follow. -/
def Dotted (u : List Lexeme) (names : List Tree) : Prop :=
  ∀ {w ts}, Derives false [.many [Nonterminal.word .dot, .named [.identifier]]] w ts →
    Derives false [.named [.identifier], .many [Nonterminal.word .dot, .named [.identifier]]]
      (u ++ w) (names ++ ts)

theorem yields_qualifiedName : qualifiedName.Yields Nonterminal.qualifiedName.Tells := by
  refine yields_rule_node rfl (.head _) (yields_token_bind fun l hl => ?_)
  have hstart : Dotted [l] [.token l.token] := fun hd => .named hl hd
  refine (yields_chain (I := Dotted) (fun u names hnames => ?_) hstart).mono ?_
  · refine yields_skip_bind fun d hd => yields_token_bind fun k hk => yields_pure ?_
    intro w ts hrest
    simpa using hnames (.again (.dropped hd (.named hk hrest)))
  · intro w ts h
    simpa using h (.done .nil)

/-- What the readings behind a name, or behind another operand, tell. -/
def PostfixTells (u : List Lexeme) (x : Tree × Bool) : Prop :=
  if x.2 then Nonterminal.qualifiedName.Tells u x.1 else Nonterminal.nonNamePostfix.Tells u x.1

theorem PostfixTells.postfixed {x : Tree × Bool} (h : PostfixTells u x) :
    Nonterminal.postfixed.Tells u x.1 := by
  unfold PostfixTells at h
  split at h
  · exact h.up rfl (by simp [Nonterminal.productions])
  · exact h.up rfl (by simp [Nonterminal.productions])

theorem yields_postfixStep (he : e.Yields Nonterminal.expression.Tells) {left : Tree × Bool}
    (hleft : PostfixTells u left) :
    (postfixStep e left).Yields fun v x => PostfixTells (u ++ v) x := by
  have hmark : ∀ {r : Reader Tree}, (r.Yields fun v t => Nonterminal.nonNamePostfix.Tells (u ++ v) t) →
      (do let t ← r; return (t, false) : Reader (Tree × Bool)).Yields fun v x =>
        PostfixTells (u ++ v) x :=
    fun h => h.bind fun v t ht => yields_pure (by simpa [PostfixTells] using ht)
  refine yields_oneOf ?_
  simp only [List.forall_mem_cons, List.not_mem_nil, false_implies, implies_true, and_true]
  have hcall : (do
      let t ← extend .functionInvocation left.1 (do return [← parameters e])
      return (t, false) : Reader (Tree × Bool)).Yields fun v x => PostfixTells (u ++ v) x := by
    refine hmark (yields_extend (m := .postfixed) rfl rfl (.tail _ (.tail _ (.head _))) rfl ?_
      hleft.postfixed)
    exact (yields_parameters he).bind fun v t ht => yields_pure (ht.derives .nil)
  refine ⟨hmark ?_, hcall, ?_⟩
  · refine yields_extend (m := .postfixed) rfl rfl (.tail _ (.head _)) rfl ?_ hleft.postfixed
    refine yields_skip_bind fun l hl => he.bind fun v t ht => yields_skip_bind fun k hk =>
      yields_pure (.dropped hl (ht.derives (.dropped hk .nil)))
  · split
    · exact yields_none hcall.inhabited
    · rename_i hname
      have hleft : Nonterminal.nonNamePostfix.Tells u left.1 := by simpa [PostfixTells, hname] using hleft
      refine hmark (yields_extend (m := .nonNamePostfix) rfl rfl
        (.tail _ (.tail _ (.tail _ (.head _)))) rfl ?_ hleft)
      exact yields_skip_bind fun l hl => yields_token_bind fun k hk =>
        yields_pure (.dropped hl (.named hk .nil))

theorem yields_postfixLevel (he : e.Yields Nonterminal.expression.Tells) :
    (postfixLevel e).Yields Nonterminal.postfixed.Tells := by
  have hfirst : (either (do return (← qualifiedName, true)) (do return (← primary e, false))).Yields
      PostfixTells := by
    refine .either (yields_qualifiedName.bind fun u t ht => yields_pure ?_)
      ((yields_primary he).bind fun u t ht => yields_pure ?_)
    · simpa [PostfixTells] using ht
    · simpa [PostfixTells] using ht.up (n := .nonNamePostfix) rfl (.head _)
  refine hfirst.bind fun u first h => (yields_chain (fun _ _ => yields_postfixStep he) h).bind
    fun v x hx => yields_pure ?_
  simpa using hx.postfixed

theorem yields_signs {operand : Reader Tree} (h : operand.Yields Nonterminal.postfixed.Tells) :
    ∀ fuel, (signs operand fuel).Yields Nonterminal.unary.Tells := by
  have hoperand : operand.Yields Nonterminal.unary.Tells :=
    h.mono fun _ _ ht => ht.up rfl (.head _)
  intro fuel
  induction fuel with
  | zero => exact hoperand
  | succ fuel ih =>
    have hparts : (do
        let minus ← token [.minus]
        return [minus, ← signs operand fuel] : Reader (List Tree)).Yields
          (Derives false [.named [.minus], .rule .unary]) := by
      refine yields_token_bind fun l hl => ih.bind fun v t ht => yields_pure ?_
      simpa using Derives.named hl ht.derives_last
    refine hoperand.either ((yields_rule hparts fun w ts hd => hd.ne_nil rfl).mono ?_)
    rintro w t ⟨ts, hd, rfl⟩
    exact tells_renamed rfl (.tail _ (.head _)) hd

theorem yields_unaryLevel (he : e.Yields Nonterminal.expression.Tells) :
    (unaryLevel e).Yields Nonterminal.unary.Tells :=
  fun c => yields_signs (yields_postfixLevel he) c.rest.length c

theorem yields_leftJoined {operand : Reader Tree} {operator : Terminal} {operators : List Terminal}
    (hm : operand.Yields m.Tells) (hs : ∃ rule, n.shaping = .single rule)
    (hup : Nonterminal.plain [.rule m] ∈ n.productions)
    (hp : ⟨[.rule n, .named (operator :: operators), .rule m], some .arithmeticExpression⟩ ∈
      n.productions) : (leftJoined operand (operator :: operators)).Yields n.Tells := by
  obtain ⟨r, hs⟩ := hs
  refine hm.bind fun u start hstart => yields_leftChain ?_ ?_ hp rfl ?_ (hstart.up hs hup)
  · simp [Nonterminal.isInlined, hs]
  · simp [Nonterminal.keeps, hs]
  · refine yields_token_bind fun l hl => hm.bind fun v t ht => yields_pure ?_
    simpa using Derives.named hl ht.derives_last

theorem yields_sumLevel (he : e.Yields Nonterminal.expression.Tells) :
    (sumLevel e).Yields Nonterminal.sum.Tells :=
  yields_leftJoined (yields_leftJoined (yields_leftJoined (yields_unaryLevel he)
    ⟨_, rfl⟩ (.head _) (.tail _ (.head _))) ⟨_, rfl⟩ (.head _) (.tail _ (.head _)))
    ⟨_, rfl⟩ (.head _) (.tail _ (.head _))

theorem yields_wordJoined {operand : Reader Tree} {k : Keyword} (hm : operand.Yields m.Tells)
    (hs : ∃ rule, n.shaping = .single rule) (hup : Nonterminal.plain [.rule m] ∈ n.productions)
    (hp : ⟨[.rule n, Nonterminal.wordOf k, .rule m], some rule⟩ ∈ n.productions) :
    (wordJoined operand k rule).Yields n.Tells := by
  obtain ⟨r, hs⟩ := hs
  refine hm.bind fun u start hstart => yields_leftChain ?_ ?_ hp rfl ?_ (hstart.up hs hup)
  · simp [Nonterminal.isInlined, hs]
  · simp [Nonterminal.keeps, hs]
  · exact yields_skip_bind fun l hl => hm.bind fun v t ht => yields_pure
      (.dropped hl (ht.derives .nil))

theorem yields_instanceLevel (he : e.Yields Nonterminal.expression.Tells) :
    (instanceLevel e).Yields Nonterminal.instanceTest.Tells := by
  have htype : (rule .type (do return [← token [.identifier]])).Yields Nonterminal.type.Tells :=
    yields_rule_node rfl (.head _) (yields_token_bind fun l hl => yields_pure (.named hl .nil))
  refine (yields_sumLevel he).bind fun u start hstart => yields_leftChain rfl rfl
    (.tail _ (.head _)) rfl ?_ (hstart.up rfl (.head _))
  exact yields_skip_bind fun l hl => yields_skip_bind fun k hk => htype.bind fun v t ht =>
    yields_pure (.dropped hl (.dropped hk (ht.derives .nil)))

/-! ## Tests and comparisons -/

/-- A comparison operator leaves its token. -/
theorem reads_compareOp {l : Lexeme}
    (hl : l.kind ∈ [.equal, .differs, .atMost, .atLeast, .less, .greater]) :
    Nonterminal.compareOp.Reads [l] [.token l.token] :=
  ⟨_, .head _, _, .named hl .nil, rfl⟩

theorem yields_simpleTest (he : e.Yields Nonterminal.expression.Tells) :
    (simpleTest e).Yields Nonterminal.simplePositiveUnaryTest.Tells := by
  refine yields_rule_node rfl (.head _) (yields_token_bind fun l hl =>
    (yields_sumLevel he).bind fun u t ht => yields_pure ?_)
  have hendpoint : Nonterminal.endpoint.Tells u t := ht.up rfl (.head _)
  exact (reads_compareOp hl).derives (hendpoint.derives .nil)

theorem yields_tests (he : e.Yields Nonterminal.expression.Tells) :
    (tests e).Yields Nonterminal.positiveUnaryTests.Tells := by
  have htest : (either (simpleTest e) e).Yields Nonterminal.positiveUnaryTest.Tells :=
    ((yields_simpleTest he).mono fun _ _ ht => ht.up rfl (.head _)).either
      (he.mono fun _ _ ht => ht.up rfl (.tail _ (.head _)))
  exact yields_rule_node rfl (.head _) (htest.separated.mono fun _ _ h => h.derives)

/-- What may follow the first operand of a comparison. -/
def ComparisonTail (w : List Lexeme) (ts : List Tree) : Prop :=
  ∃ tail, Nonterminal.plain (.rule .instanceTest :: tail) ∈ Nonterminal.comparison.productions ∧
    Derives true tail w ts

theorem yields_comparisonRest (he : e.Yields Nonterminal.expression.Tells) :
    (comparisonRest e).Yields ComparisonTail := by
  have hinst := yields_instanceLevel he
  have hsides : (either (simpleTest e) (instanceLevel e)).Yields fun w t =>
      Nonterminal.inTest.Reads w [t] :=
    ((yields_simpleTest he).mono fun _ _ ht => ⟨_, .head _, _, ht.derives_last, rfl⟩).either
      (hinst.mono fun _ _ ht => ⟨_, .tail _ (.head _), _, ht.derives_last, rfl⟩)
  refine yields_oneOf ?_
  simp only [List.forall_mem_cons, List.not_mem_nil, false_implies, implies_true, and_true]
  refine ⟨?_, ?_, ?_⟩
  · exact yields_token_bind fun l hl => hinst.bind fun v t ht => yields_pure
      ⟨_, .head _, (reads_compareOp hl).derives (ht.derives .nil)⟩
  · exact yields_token_bind fun l hl => hinst.bind fun v low hlow => yields_token_bind fun k hk =>
      hinst.bind fun w high hhigh => yields_pure
        ⟨_, .tail _ (.head _), .kept hl (hlow.derives (.kept hk (hhigh.derives .nil)))⟩
  · refine yields_token_bind fun l hl => .either ?_ ?_
    · exact hsides.bind fun v t ht => yields_pure
        ⟨_, .tail _ (.tail _ (.head _)), .kept hl (ht.derives .nil)⟩
    · refine yields_token_bind fun k hk => (yields_tests he).bind fun v t ht =>
        yields_token_bind fun j hj => yields_pure ?_
      exact ⟨_, .tail _ (.tail _ (.tail _ (.head _))),
        .kept hl (.kept hk (ht.derives (.kept hj .nil)))⟩

theorem yields_comparisonLevel (he : e.Yields Nonterminal.expression.Tells) :
    (comparisonLevel e).Yields Nonterminal.compareTest.Tells := by
  refine (yields_instanceLevel he).fork (fun u t ht => yields_pure ?_) fun u left hleft => ?_
  · simpa using ht.up (n := .compareTest) rfl (.head _)
  have htail : ∀ w ts, ComparisonTail w ts → w ≠ [] := by
    rintro w ts ⟨tail, hp, hd⟩
    refine hd.ne_nil ?_
    simp only [Nonterminal.productions, Nonterminal.plain, List.mem_cons, Production.mk.injEq,
      List.cons.injEq, true_and, and_true, List.not_mem_nil, or_false] at hp
    rcases hp with rfl | rfl | rfl | rfl <;> rfl
  refine ((yields_comparisonRest he).extend htail (hleft.span rfl) hleft.ne_nil).mono ?_
  rintro v t ⟨ts, ⟨tail, hp, hd⟩, rfl⟩
  have h : Nonterminal.comparison.Tells (u ++ v) (.node .comparison (spanOf (u ++ v)) (left :: ts)) :=
    tells_node rfl hp (hleft.derives hd)
  exact h.up rfl (.tail _ (.head _))

theorem yields_orLevel (he : e.Yields Nonterminal.expression.Tells) :
    (orLevel e).Yields Nonterminal.orTest.Tells :=
  yields_wordJoined (yields_wordJoined (yields_comparisonLevel he)
    ⟨_, rfl⟩ (.head _) (.tail _ (.head _))) ⟨_, rfl⟩ (.head _) (.tail _ (.head _))

/-! ## Loops and choices -/

theorem yields_iterationContext (he : e.Yields Nonterminal.expression.Tells) :
    (iterationContext e).Yields Nonterminal.iterationContext.Tells := by
  refine yields_rule_node rfl (.head _) (he.fork (fun u first hfirst => ?_)
    fun u first hfirst => yields_pure (hfirst.derives (.absent .nil)))
  exact yields_skip_bind fun l hl => he.bind fun v t ht => yields_pure
    (hfirst.derives (.present (.dropped hl (ht.derives .nil))))

theorem yields_inExpressions (he : e.Yields Nonterminal.expression.Tells) :
    (inExpressions e).Yields Nonterminal.inExpressions.Tells := by
  have hitem : (inExpression e).Yields Nonterminal.inExpression.Tells :=
    yields_rule_node rfl (.head _) (yields_token_bind fun l hl => yields_skip_bind fun k hk =>
      (yields_iterationContext he).bind fun v t ht => yields_pure
        (.named hl (.dropped hk (ht.derives .nil))))
  exact yields_rule_node rfl (.head _) (hitem.separated.mono fun _ _ h => h.derives)

theorem yields_forExpression (he : e.Yields Nonterminal.expression.Tells) :
    (forExpression e).Yields Nonterminal.forExpression.Tells :=
  yields_rule_node rfl (.head _) (yields_skip_bind fun _ hl => (yields_inExpressions he).bind
    fun _ _ hbindings => yields_skip_bind fun _ hk => he.bind fun _ _ ht => yields_pure
      (.dropped hl (hbindings.derives (.dropped hk (ht.derives .nil)))))

theorem yields_quantifiedExpression (he : e.Yields Nonterminal.expression.Tells) :
    (quantifiedExpression e).Yields Nonterminal.quantifiedExpression.Tells :=
  yields_rule_node rfl (.head _) (yields_token_bind fun _ hl => (yields_inExpressions he).bind
    fun _ _ hbindings => yields_skip_bind fun _ hk => he.bind fun _ _ ht => yields_pure
      (.named hl (hbindings.derives (.dropped hk (ht.derives .nil)))))

/-- A condition and a branch, which another branch may follow. -/
def Branched (u : List Lexeme) (parts : List Tree) : Prop :=
  ∀ {w ts}, Derives false [.optional [Nonterminal.wordOf .elseWord, .rule .expression]] w ts →
    Derives false [Nonterminal.wordOf .ifWord, .rule .expression, Nonterminal.wordOf .thenWord,
      .rule .expression, .optional [Nonterminal.wordOf .elseWord, .rule .expression]]
      (u ++ w) (parts ++ ts)

theorem yields_ifExpression (he : e.Yields Nonterminal.expression.Tells) :
    (ifExpression e).Yields Nonterminal.ifExpression.Tells := by
  have hhead : (do
      keyword .ifWord
      let condition ← e
      keyword .thenWord
      return [condition, ← e] : Reader (List Tree)).Yields Branched := by
    refine yields_skip_bind fun l hl => he.bind fun u c hc => yields_skip_bind fun k hk =>
      he.bind fun v t ht => yields_pure ?_
    intro w ts hd
    simpa [Nonterminal.wordOf] using Derives.dropped hl (hc.derives (.dropped hk (ht.derives hd)))
  refine yields_rule_node rfl (.head _) (hhead.fork (fun u parts h => ?_) fun u parts h => yields_pure ?_)
  · exact yields_skip_bind fun l hl => he.bind fun v t ht => yields_pure
      (h (.present (.dropped hl (ht.derives .nil))))
  · simpa using h (.absent .nil)

theorem yields_expressionLevel (he : e.Yields Nonterminal.expression.Tells) :
    (expressionLevel e).Yields Nonterminal.expression.Tells := by
  refine yields_oneOf ?_
  simp only [List.forall_mem_cons, List.not_mem_nil, false_implies, implies_true, and_true]
  refine ⟨?_, ?_, ?_, ?_⟩
  · exact (yields_forExpression he).mono fun _ _ ht => ht.up rfl (.head _)
  · exact (yields_quantifiedExpression he).mono fun _ _ ht => ht.up rfl (.tail _ (.head _))
  · exact (yields_ifExpression he).mono fun _ _ ht => ht.up rfl (.tail _ (.tail _ (.head _)))
  · exact (yields_orLevel he).mono fun _ _ ht => ht.up rfl (.tail _ (.tail _ (.tail _ (.head _))))

/-- A literal is an expression, through all the levels. -/
theorem tells_literal {l : Lexeme}
    (hl : l.kind ∈ [.number, .string, .keyword .trueWord, .keyword .falseWord, .keyword .nullWord]) :
    Nonterminal.expression.Tells [l] (.token l.token) := by
  have hliteral : Nonterminal.literal.Tells [l] (.token l.token) :=
    tells_single rfl (.head _) (.named hl .nil)
  have hprimary : Nonterminal.primary.Tells [l] (.token l.token) := hliteral.up rfl (.head _)
  have hother : Nonterminal.nonNamePostfix.Tells [l] (.token l.token) := hprimary.up rfl (.head _)
  have hpostfixed : Nonterminal.postfixed.Tells [l] (.token l.token) :=
    hother.up rfl (.tail _ (.head _))
  have hunary : Nonterminal.unary.Tells [l] (.token l.token) := hpostfixed.up rfl (.head _)
  have hpower : Nonterminal.power.Tells [l] (.token l.token) := hunary.up rfl (.head _)
  have hproduct : Nonterminal.product.Tells [l] (.token l.token) := hpower.up rfl (.head _)
  have hsum : Nonterminal.sum.Tells [l] (.token l.token) := hproduct.up rfl (.head _)
  have hinstance : Nonterminal.instanceTest.Tells [l] (.token l.token) := hsum.up rfl (.head _)
  have hcompare : Nonterminal.compareTest.Tells [l] (.token l.token) := hinstance.up rfl (.head _)
  have hand : Nonterminal.andTest.Tells [l] (.token l.token) := hcompare.up rfl (.head _)
  have hor : Nonterminal.orTest.Tells [l] (.token l.token) := hand.up rfl (.head _)
  exact hor.up rfl (.tail _ (.tail _ (.tail _ (.head _))))

theorem yields_expression (fuel : ℕ) : (expression fuel).Yields Nonterminal.expression.Tells := by
  induction fuel with
  | zero => exact yields_none ⟨_, _, tells_literal (l := ⟨.number, "0", 0, 1⟩) (.head _)⟩
  | succ fuel ih => exact yields_expressionLevel ih

/-! ## Sources -/

theorem yields_expressions (he : e.Yields Nonterminal.expression.Tells) :
    (expressions e).Yields Nonterminal.expressions.Tells :=
  yields_rule_node rfl (.head _) (he.separated.mono fun _ _ h => h.derives)

/-- A sequence of tests, as its rule may have it. -/
theorem yields_unaryTests (he : e.Yields Nonterminal.expression.Tells) :
    (unaryTests e).Yields Nonterminal.unaryTests.Tells := by
  have hwildcard : (rule .wildcard (do return [← token [.minus]])).Yields Nonterminal.wildcard.Tells :=
    yields_rule_node rfl (.head _) (yields_token_bind fun l hl => yields_pure (.named hl .nil))
  have hmade : ∀ {w ts body}, Nonterminal.plain body ∈ Nonterminal.unaryTests.productions →
      Derives true body w ts → w ≠ [] ∧
        Nonterminal.unaryTests.Tells w (.node .unaryTests (spanOf w) ts) :=
    fun hp hd => ⟨hd.ne_nil (productions_required _ _ hp), tells_node rfl hp hd⟩
  refine (yields_rule (P := fun w ts => w ≠ [] ∧
    Nonterminal.unaryTests.Tells w (.node .unaryTests (spanOf w) ts)) (yields_oneOf ?_)
    fun w ts h => h.1).mono ?_
  · simp only [List.forall_mem_cons, List.not_mem_nil, false_implies, implies_true, and_true]
    refine ⟨?_, ?_, ?_⟩
    · exact (yields_tests he).bind fun u t ht => yields_pure
        (hmade (.head _) (ht.derives .nil))
    · exact yields_token_bind fun l hl => yields_token_bind fun k hk => (yields_tests he).bind
        fun u t ht => yields_token_bind fun j hj => yields_pure
          (hmade (.tail _ (.head _)) (.kept hl (.kept hk (ht.derives (.kept hj .nil)))))
    · exact hwildcard.bind fun u t ht => yields_pure
        (hmade (.tail _ (.tail _ (.head _))) (ht.derives .nil))
  · rintro w t ⟨ts, ⟨-, h⟩, rfl⟩
    exact h

end Grammar

end Criterion

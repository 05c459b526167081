import Criterion.Proofs.Offences
import Criterion.Proofs.Searches

/-!
# Names and reserved words

Words are made of letters, digits, underscores and dollar signs. A word is one token as far as it goes, whatever
words it begins or ends with, and the reserved ones among them are no names: there is no expression that is one, and
no context with one as a key. All others are names, apart from the three that are literals: each of them can be
bound, and can be a key and the field that it leads to.

* `reservedWords`, `Lexer.IsWord.isName`: the words that are reserved, and that the others are names.
* `Grammar.word_blocked`, `Grammar.brace_blocked`: no expression is a reserved word, or begins with one behind a brace.
* `evaluate_name`: what a name evaluates to.
* `parse_keyed`: a context with a name as its key, and the field of that name.
* `names_are_words`: **names are exactly the words that are not reserved.**
-/

namespace Criterion

/-! ## Words -/

/-- The words that are part of the syntax of expressions. -/
def reservedWords : List String :=
  ["for", "in", "return", "if", "then", "else", "every", "some", "satisfies", "between", "and", "or", "instance", "of"]

/-- The words that are values. -/
def literalWords : List String := ["true", "false", "null"]

namespace Lexer

variable {word : String}

/-- A word that is neither reserved nor a value is a name. -/
theorem IsWord.isName (h : IsWord word) (hreserved : word ∉ reservedWords) (hliteral : word ∉ literalWords) :
    IsName word := by
  have hspelled : ∀ x ∈ Keyword.table, x.2.1 ∈ reservedWords ++ literalWords := by decide
  have hnone : Keyword.ofSpelling? word = none := by
    rw [Keyword.ofSpelling?, Option.map_eq_none_iff, List.find?_eq_none]
    intro x hx hsame
    have hmem := hspelled x hx
    rw [beq_iff_eq.1 hsame] at hmem
    exact (List.mem_append.1 hmem).elim hreserved hliteral
  refine ⟨h.starts, h.parts, ?_⟩
  rw [wordKind, String.ofList_toList]
  simp [hnone]

/-- The terminals of the reserved words. -/
def reservedKinds : List Terminal := reservedWords.map fun word => wordKind false word.toList

end Lexer

/-! ## Reserved words -/

namespace Grammar

open Reader Lexer

variable {c : Cursor} {l p : Lexeme} {rest : List Lexeme} {α : Type}

/-- Behind the last token a word does not help. -/
theorem blocked_behind_last {f : Unit → Reader α} {kind : Terminal} (hc : c.rest = [l])
    (h : (f ()).Blocked ⟨l.stop, []⟩) : (skip kind >>= f).Blocked c := by
  by_cases hl : l.kind = kind
  · exact (sole_skip hc hl).bind_blocked h
  · refine (blocked_skip fun k hk => ?_).bind f
    rw [hc] at hk
    cases hk
    exact hl

/-- **No expression is a reserved word.** Those that begin one go on. -/
theorem word_blocked (hc : c.rest = [l]) (hl : l.kind ∈ reservedKinds) (n : ℕ) : (expression n).Blocked c := by
  cases n with
  | zero => rfl
  | succ n =>
    have hhead : c.HeadIn reservedKinds := Cursor.headIn_of_rest hc hl
    have hend : Cursor.HeadIn ⟨l.stop, []⟩ closers := fun k hk => absurd hk (Option.not_mem_none k)
    have hundotted : Cursor.Undotted ⟨l.stop, []⟩ := List.forall_mem_nil _
    have hexpression : (expression n).Blocked ⟨l.stop, []⟩ := expression_blocked hundotted hend n
    have hbindings : (inExpressions (expression n)).Blocked ⟨l.stop, []⟩ :=
      ((((blocked_token (avoids hend (by decide))).bind _).rule _).bind _).rule _
    have hprimary : (primary (expression n)).Blocked c :=
      primary_blocked_at (yields_expression n) (avoids hhead (by decide))
    refine blocked_oneOf fun r hr => ?_
    simp only [List.mem_cons, List.not_mem_nil, or_false] at hr
    rcases hr with rfl | rfl | rfl | rfl
    · exact (blocked_behind_last hc (hbindings.bind _)).rule _
    · by_cases hquantifier : l.kind ∈ [Terminal.keyword .everyWord, .keyword .someWord]
      · exact ((sole_token hc hquantifier).bind_blocked (hbindings.bind _)).rule _
      · refine ((blocked_token fun k hk => ?_).bind _).rule _
        rw [hc] at hk
        cases hk
        exact hquantifier
    · exact (Blocked.fork (blocked_behind_last hc (hexpression.bind _)) _ _).rule _
    · exact orLevel_blocked (unaryLevel_blocked hprimary (avoids hhead (by decide)))

/-- **No expression begins with a brace and a reserved word.** -/
theorem brace_blocked (hc : c.rest = p :: l :: rest) (hp : p.kind = .leftBrace) (hl : l.kind ∈ reservedKinds)
    (n : ℕ) : (expression n).Blocked c := by
  cases n with
  | zero => rfl
  | succ n =>
    have hhead : c.HeadIn [.leftBrace] := Cursor.headIn_of_rest hc (List.mem_singleton.2 hp)
    have hbehind : Cursor.HeadIn ⟨p.stop, l :: rest⟩ reservedKinds := Cursor.headIn_of_rest rfl hl
    have hentries : (separated (entry (expression n))).Blocked ⟨p.stop, l :: rest⟩ :=
      (((blocked_token (avoids hbehind (by decide))).bind _).rule _).bind _
    have hclosing : (either (separated (entry (expression n))) (pure [])).Sole ⟨p.stop, l :: rest⟩ []
        ⟨p.stop, l :: rest⟩ := Sole.either_right hentries (sole_pure [] _)
    have hcontext : (context (expression n)).Blocked c :=
      ((sole_skip hc hp).bind_blocked (hclosing.bind_blocked
        ((blocked_skip (avoids_one hbehind (by decide))).bind _))).rule _
    have hprimary : (primary (expression n)).Blocked c := by
      refine blocked_oneOf fun r hr => ?_
      rcases List.mem_cons.1 hr with rfl | hr
      · exact literal_blocked (avoids hhead (by decide))
      rcases List.mem_cons.1 hr with rfl | hr
      · exact bracketed_blocked (avoids_one hhead (by decide))
      rcases List.mem_cons.1 hr with rfl | hr
      · exact hcontext
      rcases List.mem_cons.1 hr with rfl | hr
      · exact ((blocked_token (avoids hhead (by decide))).bind _).node
      · exact others_blocked_at (avoids hhead (by decide)) r hr
    exact expressionLevel_blocked (unaryLevel_blocked hprimary (avoids hhead (by decide)))
      (avoids hhead (by decide))

/-- Where no expression begins, there is no tree. -/
theorem parse_ne_ok {source : String}
    (h : ∀ w, Tokens false 0 source.toList w → ∀ n, (expression n).Blocked ⟨0, w⟩) (t : Tree) :
    parse false source ≠ .ok t := by
  intro ht
  obtain ⟨hstop, hread⟩ := parse_eq_ok.1 ht
  have htokens : Tokens false 0 source.toList (lex false source).lexemes := lex_eq_iff.1 (by rw [← hstop])
  have hblocked : (expressions (expression ((lex false source).lexemes.length + 1))).Blocked
      ⟨0, (lex false source).lexemes⟩ := ((h _ htokens _).bind _).rule _
  have hnone : (readings false (lex false source).lexemes).found = [] := hblocked
  rw [Readings.complete?, hnone] at hread
  cases hread

end Grammar

open Lexer Grammar

section Failures

variable {word : String}

/-- A source without a tree fails at some place. -/
theorem evaluate_unparseable {source : String} (h : ∀ t, parse false source ≠ .ok t) (s : Settings)
    (bindings : Fields) : ∃ start stop,
      (evaluate s source bindings).outcome = .error (.unparseable start stop (some source)) := by
  obtain ⟨start, -, hparse⟩ := parse_eq_unparseable h
  have hanswer : (evaluate s source bindings).outcome =
      .error (.unparseable start (min (start + 1) source.length) (some source)) := by
    unfold evaluate
    rw [Run.bind_of_ok (s.note_outcome _), hparse]
    rfl
  exact ⟨start, _, hanswer⟩

/-- A reserved word is one token of its own kind. -/
theorem wordKind_reserved (h : word ∈ reservedWords) : wordKind false word.toList ∈ reservedKinds :=
  List.mem_map_of_mem h

/-- A reserved word by itself is no source. -/
theorem parse_reserved (h : IsWord word) (hreserved : word ∈ reservedWords) (t : Tree) :
    parse false word ≠ .ok t := by
  refine parse_ne_ok (fun w hw n => ?_) t
  have hkind := wordKind_reserved hreserved
  have hend : EndsName [] := endsName_of_head fun c hc => absurd hc (Option.not_mem_none c)
  have hscans := h.scans_before hend
  have htrivia : ∀ k ∈ reservedKinds, k.isTrivia = false := by decide
  rw [← List.append_nil word.toList, tokens_append_iff hscans, htrivia _ hkind] at hw
  obtain ⟨behind, rfl, hbehind⟩ := hw
  rw [tokens_nil_iff.1 hbehind]
  exact word_blocked rfl hkind n

/-- No source begins with a brace, a reserved word and a colon. -/
theorem parse_reserved_key (h : IsWord word) (hreserved : word ∈ reservedWords) (rest : String) (t : Tree) :
    parse false ("\x7b" ++ word ++ ":" ++ rest) ≠ .ok t := by
  refine parse_ne_ok (fun w hw n => ?_) t
  have hkind := wordKind_reserved hreserved
  have hends : EndsName (':' :: rest.toList) := by
    refine endsName_of_head fun c hc => ?_
    cases hc
    decide
  have htrivia : ∀ k ∈ reservedKinds, k.isTrivia = false := by decide
  have hbrace : Scans false ['\x7b'] (word.toList ++ ':' :: rest.toList) .leftBrace := scans_of_scan rfl
  have htext : ("\x7b" ++ word ++ ":" ++ rest).toList = ['\x7b'] ++ (word.toList ++ ':' :: rest.toList) := by
    simp [String.toList_append]
  rw [htext, tokens_append_iff hbrace] at hw
  obtain ⟨behind, rfl, hbehind⟩ := hw
  rw [tokens_append_iff (h.scans_before hends), htrivia _ hkind] at hbehind
  obtain ⟨others, rfl, -⟩ := hbehind
  exact brace_blocked rfl rfl hkind n

end Failures

/-! ## Names -/

section Names

variable {name : String} {registry bindings : Fields} {v : Value}

/-- **A name by itself is read as that name.** -/
theorem parse_name (h : IsName name) : ∃ t, parse false name = .ok t ∧
    (t.build name).outcome = .ok (some (.expr (.list [.name name]))) := by
  have hplain : dotted name [] = name := by simp [dotted]
  have hnames : ∀ s ∈ [name], IsName s := List.forall_mem_singleton.2 h
  have hparse := parse_dotted hnames
  rwa [hplain] at hparse

/-- A name evaluates to what it is bound to, if it is not registered. -/
theorem evaluate_name (h : IsName name) (hregistry : Unregistered registry name) (hv : bindings.get? name = some v) :
    evaluate ⟨registry, 0⟩ name bindings = pure v :=
  evaluate_of_value (parse_name h) (eval_bound hregistry ((get_ofFields bindings name).trans hv))

/-- It evaluates to what is registered under it otherwise. -/
theorem evaluate_registered (h : IsName name) (hv : registry.get? name = some v) (hne : v ≠ .null) :
    evaluate ⟨registry, 0⟩ name bindings = pure v :=
  evaluate_of_value (parse_name h) (eval_registered hv hne _)

/-! ### Names as keys -/

/-- The field of a value that stands for itself. -/
theorem Tree.denotes_path {t : Tree} {m : Lexeme} (h : t.Denotes v) (hm : m.kind = .identifier) (span : Option Span) :
    (Tree.node .pathExpression span [t, .token m.token]).Denotes (v.fieldOrFields m.text) := by
  intro source
  obtain ⟨e, hparts, he⟩ := h source
  have hfield : (Tree.artifacts source [.token m.token]).outcome = .ok [.text m.text] :=
    artifacts_identifiers (List.forall_mem_singleton.2 hm)
  refine ⟨.path e m.text, artifacts_node_ok (by decide) (artifacts_cons_ok hparts hfield) fun _ _ => rfl, ?_⟩
  intro registry scope
  rw [Expr.eval, he, pure_bind]

/-- A context with one entry, whose key is a name, and the field of that name. -/
def keyed (name : String) (v : Value) : String := "\x7b" ++ name ++ ": " ++ v.literal ++ "\x7d." ++ name

/-- Its tokens: an entry between braces, a dot and a name. -/
theorem tokens_keyed (h : IsName name) (hv : v.HasLiteral) : ∃ u w : List Lexeme,
    Tokens false 0 (keyed name v).toList (u ++ w) ∧ Enclosed ReadsEntry .leftBrace .rightBrace [(name, v)] u ∧
      Dots [name] w := by
  have htext : (keyed name v).toList =
      '\x7b' :: (name.toList ++ ':' :: (' ' :: v.literal.toList ++ '\x7d' :: behindDots [name])) := by
    simp [keyed, behindDots, String.toList_append]
  have hends : EndsName (':' :: (' ' :: v.literal.toList ++ '\x7d' :: behindDots [name])) := by
    refine endsName_of_head fun c hc => ?_
    cases hc
    decide
  have hclosed : Closed ('\x7d' :: behindDots [name]) := by
    intro c hc
    cases hc
    decide
  obtain ⟨w, hw, hdots⟩ := tokens_behindDots (List.forall_mem_singleton.2 h)
    (0 + 1 + name.toList.length + 1 + (' ' :: v.literal.toList).length + 1)
  obtain ⟨r, hr, -, hclosing⟩ := tokens_symbol (t := .rightBrace) (c := '\x7d') rfl rfl hw
  obtain ⟨x, hx, hreads⟩ := (lexes_literal false hv).tokens_behind_blank hclosed hclosing
  obtain ⟨q, hq, -, hcolon⟩ := tokens_symbol (t := .colon) (c := ':') rfl rfl hx
  obtain ⟨k, hk, hkey, hname⟩ := tokens_scanned (h.scans_before hends) rfl hcolon
  rw [String.ofList_toList] at hkey
  obtain ⟨p, hp, -, hall⟩ := tokens_symbol (t := .leftBrace) (c := '\x7b') rfl rfl hname
  refine ⟨p :: (k :: q :: x ++ ([] ++ [r])), w, ?_, .items hp (readsEntry (.inl ⟨hk, hkey⟩) hq hreads) .nil hr, hdots⟩
  rw [htext]
  simpa using hall

/-- **A name is a key, and leads to the value of its entry.** -/
theorem parse_keyed (h : IsName name) (hv : v.HasLiteral) : ∃ t e, parse false (keyed name v) = .ok t ∧
    (t.build (keyed name v)).outcome = .ok (some (.expr (.list [e]))) ∧
      ∀ registry scope, e.eval registry scope = pure v := by
  obtain ⟨u, w, htokens, hentries, hdots⟩ := tokens_keyed h hv
  obtain ⟨x, hcontext, hbehind⟩ := (passes_all (u ++ w)).split
  have hordered : Cursor.Ordered ⟨0, u ++ w⟩ := htokens.ordered
  have hundotted : Cursor.Undotted ⟨0, u ++ w⟩ :=
    List.forall_mem_append.2 ⟨entries_undotted hentries, dots_undotted hdots⟩
  have hkeys : ([(name, v)].map (·.1)).Nodup := List.nodup_singleton name
  have hhead : Cursor.HeadIn ⟨0, u ++ w⟩ [.leftBrace] := by
    cases hentries with
    | items hp _ _ _ => exact Cursor.headIn_of_rest rfl (List.mem_singleton.2 hp)
  obtain ⟨t, ht, hdenotes⟩ := primary_of_entries hkeys hentries (n := (u ++ w).length) (by simp; omega) hcontext
    hordered hundotted (hundotted.passes hcontext)
  have hpath : ∀ {done : List String} {t : Tree} {m : Lexeme} (span : Option Span),
      t.Denotes ((Value.context [(name, v)]).walk done) → m.kind = .identifier →
        (Tree.node .pathExpression span [t, .token m.token]).Denotes
          ((Value.context [(name, v)]).walk (done ++ [m.text])) := by
    intro done t m span ht hm
    have hfield := Tree.denotes_path ht hm span
    unfold Value.walk at hfield ⊢
    rwa [List.foldl_append]
  obtain ⟨y, hy, hvalue⟩ := only_paths (P := fun parts t => t.Denotes ((Value.context [(name, v)]).walk parts)) hpath
    hdots ht hdenotes (hhead.mono (by decide)) hbehind (hordered.passes hcontext)
    fun k hk => absurd hk (Option.not_mem_none k)
  have hwalk : (Value.context [(name, v)]).walk [name] = v := by
    simp [Value.walk, Value.fieldOrFields, Value.field, Fields.get?, Value.ofOption]
  rw [hwalk] at hvalue
  exact parse_of_only htokens hy (by decide) hvalue

theorem evaluate_keyed (h : IsName name) (hv : v.HasLiteral) :
    evaluate ⟨registry, 0⟩ (keyed name v) bindings = pure v := by
  obtain ⟨t, e, hparse, hbuild, he⟩ := parse_keyed h hv
  exact evaluate_of_value ⟨t, hparse, hbuild⟩ (he _ _)

end Names

/-- **Names are exactly the words that are not reserved.** A reserved word is no source and no key of a context,
whatever follows it there. Any other word that is no literal evaluates to what it is bound to, or to what the registry
has under it, and as a key it leads to the value of its entry. -/
theorem names_are_words (word : String) (h : Lexer.IsWord word) :
    (word ∈ reservedWords → ∀ (s : Settings) (bindings : Fields),
      (∃ start stop, (evaluate s word bindings).outcome = .error (.unparseable start stop (some word))) ∧
      ∀ rest : String, ∃ start stop, (evaluate s ("\x7b" ++ word ++ ":" ++ rest) bindings).outcome =
        .error (.unparseable start stop (some ("\x7b" ++ word ++ ":" ++ rest)))) ∧
    (word ∉ reservedWords → word ∉ literalWords → ∀ registry bindings : Fields,
      (∀ v, bindings.get? word = some v → Unregistered registry word →
        evaluate ⟨registry, 0⟩ word bindings = pure v) ∧
      (∀ v, registry.get? word = some v → v ≠ .null → evaluate ⟨registry, 0⟩ word bindings = pure v) ∧
      evaluate ⟨registry, 0⟩ ("\x7b" ++ word ++ ": 1\x7d." ++ word) bindings = pure (.whole 1)) := by
  refine ⟨fun hreserved s bindings => ⟨?_, fun rest => ?_⟩, fun hreserved hliteral registry bindings => ?_⟩
  · exact evaluate_unparseable (parse_reserved h hreserved) s bindings
  · exact evaluate_unparseable (parse_reserved_key h hreserved rest) s bindings
  · have hname := h.isName hreserved hliteral
    have hone : Value.HasLiteral (.whole 1) := .whole (Nat.one_lt_pow (by decide) (by decide))
    have hsource : keyed word (.whole 1) = "\x7b" ++ word ++ ": 1\x7d." ++ word := by
      have hdigit : (Value.whole 1).literal = "1" := by decide
      rw [keyed, hdigit]
      simp [String.append_assoc]
    have hkeyed : evaluate ⟨registry, 0⟩ (keyed word (.whole 1)) bindings = pure (.whole 1) := evaluate_keyed hname hone
    rw [hsource] at hkeyed
    exact ⟨fun v hv hregistry => evaluate_name hname hregistry hv,
      fun v hv hne => evaluate_registered hname hv hne, hkeyed⟩

/-- The reserved word `in`, and words that only begin or end like reserved ones. -/
theorem names_are_words_inner : Lexer.IsWord "in" ∧ Lexer.IsWord "inner" ∧ Lexer.IsWord "format" ∧
    (∃ start stop, (evaluate .standard "in" [("in", .whole 1)]).outcome =
      .error (.unparseable start stop (some "in"))) ∧
    (∃ start stop, (evaluate .standard "\x7bin: 1\x7d" []).outcome =
      .error (.unparseable start stop (some "\x7bin: 1\x7d"))) ∧
    evaluate .standard "inner" [("inner", .text "a")] = pure (.text "a") ∧
    evaluate ⟨[("format", .whole 2)], 0⟩ "format" [("format", .whole 1)] = pure (.whole 2) ∧
    evaluate .standard "\x7bformat: 1\x7d.format" [] = pure (.whole 1) := by
  have hin : Lexer.IsWord "in" := ⟨by decide, List.all_eq_true.1 (by decide)⟩
  have hinner : Lexer.IsWord "inner" := ⟨by decide, List.all_eq_true.1 (by decide)⟩
  have hformat : Lexer.IsWord "format" := ⟨by decide, List.all_eq_true.1 (by decide)⟩
  refine ⟨hin, hinner, hformat, ?_, ?_, ?_, ?_, ?_⟩
  · exact ((names_are_words "in" hin).1 (by decide) .standard _).1
  · exact ((names_are_words "in" hin).1 (by decide) .standard _).2 " 1\x7d"
  · exact ((names_are_words "inner" hinner).2 (by decide) (by decide) standardRegistry _).1 _ rfl (.inl (by decide))
  · exact ((names_are_words "format" hformat).2 (by decide) (by decide) _ _).2.1 _ rfl nofun
  · exact ((names_are_words "format" hformat).2 (by decide) (by decide) standardRegistry _).2.2

end Criterion

import Criterion.Proofs.Joining
import Criterion.Proofs.Paths
import Criterion.Proofs.Spacing

/-!
# Backslashes in strings

A backslash between quotes takes the next character with it, so that a quote may stand there; but the string that a
literal stands for is the text between its quotes as it is written, with all backslashes. So a string with a quote
or a backslash is not what its escaped literal stands for, and a string has a literal only if its quotes are
escaped already.

* `escaped`: a string with a backslash before each quote and each backslash.
* `quotable_escaped`, `escaped_injective`, `escaped_eq_self_iff`: what escaping does.
* `parse_string`, `quotable_of_string`: **strings that can stand between quotes are the ones that have literals.**
* `escaped_literal_keeps_backslashes`: **what the escaped literal of a string stands for**, as a value and as a key.
* `quote_is_kept_escaped`: a literal of a quote stands for a backslash and a quote.
-/

namespace Criterion

open Lexer Grammar
open scoped Computability

/-! ## Escaping -/

/-- Whether a character needs a backslash before it. -/
def isEscaped (c : Char) : Bool := c = '"' ∨ c = '\\'

/-- A character with the backslash that it needs. -/
def escapedChar (c : Char) : List Char := if isEscaped c then ['\\', c] else [c]

/-- A string with a backslash before each quote and each backslash. -/
def escaped (s : String) : String := String.ofList (s.toList.flatMap escapedChar)

/-- Characters without the backslashes before them. -/
def withoutEscapes : List Char → List Char
  | '\\' :: c :: rest => c :: withoutEscapes rest
  | c :: rest => c :: withoutEscapes rest
  | [] => []

section Escaping

variable {s : String}

theorem unescaped_iff : Unescaped s ↔ ∀ c ∈ s.toList, isEscaped c = false := by
  refine forall₂_congr fun c _ => ?_
  simp [isEscaped]

/-- An escaped string can stand between quotes. -/
theorem quotable_escaped (s : String) : Quotable (escaped s) := by
  unfold Quotable escaped
  rw [String.toList_ofList]
  refine Language.mem_kstar.2 ⟨s.toList.map escapedChar, List.flatMap_def.symm ▸ rfl, fun part hpart => ?_⟩
  obtain ⟨c, -, rfl⟩ := List.mem_map.1 hpart
  unfold escapedChar
  split
  · rename_i hc
    have hbreak : c ≠ '\n' := by
      rintro rfl
      exact absurd hc (by decide)
    exact .inr ⟨['\\'], rfl, [c], ⟨c, rfl, decide_eq_true hbreak⟩, rfl⟩
  · rename_i hc
    have hplain : c ≠ '"' ∧ c ≠ '\\' := by simpa [isEscaped] using hc
    exact .inl ⟨c, rfl, decide_eq_true hplain⟩

theorem withoutEscapes_escaped (cs : List Char) : withoutEscapes (cs.flatMap escapedChar) = cs := by
  induction cs with
  | nil => rfl
  | cons c cs ih =>
    rw [List.flatMap_cons, escapedChar]
    split
    · exact congrArg (c :: ·) ih
    · rename_i hc
      have hplain : c ≠ '\\' := by
        rintro rfl
        exact hc (by decide)
      rw [List.singleton_append, withoutEscapes]
      · rw [ih]
      · exact fun _ _ h => absurd h hplain

/-- No two strings are escaped to the same one. -/
theorem escaped_injective : Function.Injective escaped := by
  intro s t h
  have hlist : s.toList.flatMap escapedChar = t.toList.flatMap escapedChar := String.ofList_injective h
  rw [← String.toList_inj, ← withoutEscapes_escaped s.toList, hlist, withoutEscapes_escaped]

/-- Escaping adds one character for each quote and each backslash. -/
theorem length_escaped (cs : List Char) : (cs.flatMap escapedChar).length = cs.length + cs.countP isEscaped := by
  induction cs with
  | nil => rfl
  | cons c cs ih =>
    rw [List.flatMap_cons, List.length_append, ih, escapedChar, List.countP_cons]
    split <;> simp <;> omega

/-- Only strings without quotes and backslashes stay as they are. -/
theorem escaped_eq_self_iff : escaped s = s ↔ Unescaped s := by
  rw [unescaped_iff]
  constructor
  · intro h c hc
    have hlist : s.toList.flatMap escapedChar = s.toList := by
      have htext := congrArg String.toList h
      rwa [escaped, String.toList_ofList] at htext
    have hlength := length_escaped s.toList
    rw [hlist] at hlength
    have hnone : s.toList.countP isEscaped = 0 := by omega
    simpa using List.countP_eq_zero.1 hnone c hc
  · intro h
    have hlist : s.toList.flatMap escapedChar = s.toList.flatMap ([·]) := by
      refine List.flatMap_congr fun c hc => ?_
      rw [escapedChar, if_neg (by simp [h c hc])]
    rw [escaped, hlist, List.flatMap_singleton', String.ofList_toList]

end Escaping

/-! ## Strings of literals -/

section Strings

variable {s source : String} {text : String} {span span' : Option Span} {registry bindings : Fields}

/-- A source that is read as one value has it. -/
theorem evaluate_of_lexes {v : Value} (h : Lexes false source.toList (ReadsAs v)) (registry bindings : Fields) :
    evaluate ⟨registry, 0⟩ source bindings = pure v := by
  have hend : Tokens false (0 + source.toList.length) [] [] := .done
  have hclosed : Closed [] := fun c hc => absurd hc (Option.not_mem_none c)
  obtain ⟨w, htokens, hw⟩ := h.tokens hclosed hend
  rw [List.append_nil, List.append_nil] at htokens
  obtain ⟨t, e, hparse, hbuild, he⟩ := parse_of_readsAs htokens hw
  exact evaluate_of_value ⟨t, hparse, hbuild⟩ (he _ _)

/-- **Text that can stand between quotes is one string there.** -/
theorem parse_string (hs : Quotable s) : ∃ span span',
    parse false (enquoted s) = .ok (.node .expressions span [.token ⟨.string, enquoted s, span'⟩]) := by
  let l : Lexeme := ⟨.string, enquoted s, 0, 0 + (enquoted s).toList.length⟩
  have htokens : Tokens false 0 (enquoted s).toList [l] := by
    have hscanned : Tokens false 0 ((enquoted s).toList ++ [])
        [⟨.string, String.ofList (enquoted s).toList, 0, 0 + (enquoted s).toList.length⟩] :=
      .token (scans_string hs []) rfl .done
    rwa [List.append_nil, String.ofList_toList] at hscanned
  have hliteral : Terminal.string ∈ literalTokens := by decide
  have hend : Cursor.HeadIn ⟨l.stop, []⟩ closers := fun k hk => absurd hk (Option.not_mem_none k)
  have hsole : (expression 2).Sole ⟨0, [l]⟩ (.token l.token) ⟨l.stop, []⟩ :=
    sole_literal rfl hliteral hend 1
  obtain ⟨span, hspan⟩ := parse_of_reading htokens (hsole.only []) List.not_mem_nil
  exact ⟨span, _, hspan⟩

theorem evaluate_string (hs : Quotable s) (registry bindings : Fields) :
    evaluate ⟨registry, 0⟩ (enquoted s) bindings = pure (.text s) :=
  evaluate_of_lexes (lexes_string hs (readsAs_literal (by decide) (denotes_text s))) registry bindings

/-- The text of a string is one of the pattern of strings. -/
theorem string_of_scans {unary : Bool} {v w : List Char} (h : Scans unary v w .string) : v ∈ stringPattern.text := by
  obtain ⟨p, hp, hmakes⟩ := h
  have htext := hp.takes.fits.text
  generalize hkind : Terminal.string = t at hmakes
  cases hmakes with
  | reserved => cases hkind
  | plain =>
    rcases mem_patterns_iff.1 hp.mem with ⟨x, hx, rfl⟩ | rfl | rfl | rfl | rfl | rfl | rfl | ⟨x, hx, rfl⟩
    · have hphrases : ∀ x ∈ phrases, x.1 ≠ .string := by decide
      exact absurd hkind.symm (hphrases x hx)
    · cases hkind
    · cases hkind
    · exact htext
    · cases hkind
    · cases hkind
    · cases hkind
    · have hsymbols : ∀ x ∈ symbols, x.1 ≠ .string := by decide
      exact absurd hkind.symm (hsymbols x hx)

theorem Tokens.strings {unary : Bool} {position : ℕ} {cs : List Char} {ls : List Lexeme}
    (h : Tokens unary position cs ls) : ∀ l ∈ ls, l.kind = .string → l.text.toList ∈ stringPattern.text := by
  induction h with
  | done => exact fun _ hl => absurd hl List.not_mem_nil
  | trivia _ _ _ ih => exact ih
  | @token position v w t ls hscan _ _ ih =>
    refine List.forall_mem_cons.2 ⟨?_, ih⟩
    rintro rfl
    rw [String.toList_ofList]
    exact string_of_scans hscan

/-- A text in quotes. -/
theorem enquoted_of_string (h : text.toList ∈ stringPattern.text) : ∃ s, Quotable s ∧ text = enquoted s := by
  obtain ⟨rest, htext, inner, hinner, quote, hquote, rfl⟩ := mem_string.1 h
  obtain rfl : quote = ['"'] := hquote
  refine ⟨String.ofList inner, by rwa [Quotable, String.toList_ofList], ?_⟩
  rw [← String.toList_inj, htext, enquoted_toList, String.toList_ofList]

/-- **What a string in a source stands for** could stand between quotes. -/
theorem quotable_of_string (h : parse false source = .ok (.node .expressions span [.token ⟨.string, text, span'⟩])) :
    ∃ s, Quotable s ∧ text = enquoted s ∧ ∀ registry bindings,
      evaluate ⟨registry, 0⟩ source bindings = pure (.text s) := by
  obtain ⟨ls, halone⟩ := alone_of_parse h
  have hcomes := halone.tells.comesOf rfl
  have hstring : text.toList ∈ stringPattern.text := by
    generalize htoken : (⟨.string, text, span'⟩ : Token) = k at hcomes
    cases hcomes with
    | token l =>
      obtain ⟨hkind, htext, -⟩ := Token.mk.inj htoken
      rw [htext]
      exact halone.tokens.strings l List.mem_cons_self hkind.symm
  obtain ⟨s, hs, rfl⟩ := enquoted_of_string hstring
  refine ⟨s, hs, rfl, fun registry bindings => ?_⟩
  obtain ⟨e, hbuilt, he⟩ := denotes_text s span' source
  have hbuild : ((Tree.node .expressions span [.token ⟨.string, enquoted s, span'⟩]).build source).outcome =
      .ok (some (.expr (.list [e]))) := by
    rw [build_node (by decide), hbuilt]
    rfl
  exact evaluate_of_value ⟨_, h, hbuild⟩ (he _ _)

end Strings

/-! ## Escaped literals -/

/-- The context that is written with escaped keys. -/
def escapedContext (fields : Fields) : String :=
  "\x7b" ++ commaSeparated (fields.map fun p => enquoted (escaped p.1) ++ ": " ++ p.2.literal) ++ "\x7d"

/-- **An escaped literal keeps its backslashes.** The literal of an escaped string is accepted as one expression,
but it stands for the escaped string, which is the string itself only without quotes and backslashes; the same holds
of the keys of a context. A string has a literal at all exactly if it can stand between quotes as it is. -/
theorem escaped_literal_keeps_backslashes (s : String) (registry bindings : Fields) :
    (∃ span t, parse false (enquoted (escaped s)) = .ok (.node .expressions span [t])) ∧
    evaluate ⟨registry, 0⟩ (enquoted (escaped s)) bindings = pure (.text (escaped s)) ∧
    (escaped s = s ↔ Unescaped s) ∧
    ((∃ source text span span',
        parse false source = .ok (.node .expressions span [.token ⟨.string, text, span'⟩]) ∧
          evaluate ⟨registry, 0⟩ source bindings = pure (.text s)) ↔ Quotable s) ∧
    ∀ fields : Fields, (fields.map (·.1)).Nodup → (∀ p ∈ fields, p.2.HasLiteral) →
      evaluate ⟨registry, 0⟩ (escapedContext fields) bindings =
        pure (.context (fields.map fun p => (escaped p.1, p.2))) := by
  refine ⟨?_, evaluate_string (quotable_escaped s) registry bindings, escaped_eq_self_iff, ⟨?_, ?_⟩, ?_⟩
  · obtain ⟨span, span', hparse⟩ := parse_string (quotable_escaped s)
    exact ⟨span, _, hparse⟩
  · rintro ⟨source, text, span, span', hparse, hvalue⟩
    obtain ⟨t, ht, -, heval⟩ := quotable_of_string hparse
    rw [heval] at hvalue
    cases hvalue
    exact ht
  · intro hs
    obtain ⟨span, span', hparse⟩ := parse_string hs
    exact ⟨_, _, span, span', hparse, evaluate_string hs registry bindings⟩
  · intro fields hkeys hvalues
    let written : Fields := fields.map fun p => (escaped p.1, p.2)
    have hunique : (written.map (·.1)).Nodup := by
      rw [List.map_map]
      have hescaped := hkeys.map escaped_injective
      rwa [List.map_map] at hescaped
    have hquotable : ∀ p ∈ written, Quotable p.1 := by
      intro p hp
      obtain ⟨q, -, rfl⟩ := List.mem_map.1 hp
      exact quotable_escaped q.1
    have hlexed : ∀ p ∈ written, Lexes false p.2.literal.toList (ReadsAs p.2) := by
      intro p hp
      obtain ⟨q, hq, rfl⟩ := List.mem_map.1 hp
      exact lexes_literal false (hvalues q hq)
    have hlexes := lexes_context (fun p => p.2.literal) hunique hquotable hlexed
    rw [List.map_map] at hlexes
    exact evaluate_of_lexes hlexes registry bindings

/-- A key with a quote, and a value without one. -/
theorem quote_key_is_kept_escaped : ([("\"", Value.text "a")].map (·.1)).Nodup ∧
    (∀ p ∈ [("\"", Value.text "a")], p.2.HasLiteral) ∧
    evaluate .standard "\x7b\"\\\"\": \"a\"\x7d" [] = pure (.context [("\\\"", .text "a")]) := by
  have hkeys : ([("\"", Value.text "a")].map (·.1)).Nodup := by decide
  have hvalues : ∀ p ∈ [("\"", Value.text "a")], p.2.HasLiteral :=
    List.forall_mem_singleton.2 (.text (by decide))
  have hsource : escapedContext [("\"", .text "a")] = "\x7b\"\\\"\": \"a\"\x7d" := by decide
  have hkey : escaped "\"" = "\\\"" := by decide
  obtain ⟨-, -, -, -, hcontext⟩ := escaped_literal_keeps_backslashes "\"" standardRegistry []
  have hvalue := hcontext _ hkeys hvalues
  rw [hsource, List.map_singleton, hkey] at hvalue
  exact ⟨hkeys, hvalues, hvalue⟩

/-- **A literal of a quote stands for a backslash and a quote.** -/
theorem quote_is_kept_escaped : (∀ c ∈ "\"".toList, c ≠ '\n') ∧ enquoted (escaped "\"") = "\"\\\"\"" ∧
    evaluate .standard "\"\\\"\"" [] = pure (.text "\\\"") ∧
    evaluate .standard "\"\\\"\"" [] ≠ pure (.text "\"") := by
  have hvalue : evaluate .standard "\"\\\"\"" [] = pure (.text "\\\"") :=
    evaluate_string (quotable_escaped "\"") standardRegistry []
  refine ⟨List.forall_mem_singleton.2 (by decide), by decide, hvalue, ?_⟩
  rw [hvalue]
  intro hquote
  have htext : Value.text "\\\"" = .text "\"" := Except.ok.inj (congrArg Run.outcome hquote)
  exact absurd (Value.text.inj htext) (by decide)

end Criterion

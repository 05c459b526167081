import Criterion.Proofs.Commas
import Criterion.Proofs.Gaps
import Criterion.Proofs.Whole
import Criterion.Proofs.Wrapping

/-!
# Sources with commas between them

Sources of expressions can be put into one, with a line break and a comma between each two of them. The line
break ends a line comment, and no token reaches over the comma, so each source has its own tokens there, further
on.

* `Tokens.leading_break`: a text has the same tokens before a line break and a comma.
* `commaList`: some sources in one.
* `Joined`: the tokens and the trees of some sources, at their places in the one.
* `Joined.tokens`: **the tokens of the one source are those of the others, with commas between them.**
-/

namespace Criterion

open Lexer

/-! ## Before a line break and a comma -/

section Breaks

variable {unary : Bool} {t : Terminal} {c : Char} {u v w before rest : List Char}

/-- Where no word, number, text in quotes, blank or comment begins, an operator or a bracket is read. -/
theorem symbol_of_scans (hword : isWordStart c = false) (hdigit : Text.isDigit c = false)
    (hother : c ≠ '.' ∧ c ≠ '"' ∧ isSpace c = false) (hslash : c = '/' → u = [])
    (h : Scans unary (c :: u) w t) : ∃ x ∈ symbols, t = x.1 ∧ c :: u = x.2.toList := by
  have hkinds : ∀ x ∈ symbols, x.1 ≠ .identifier := by decide
  obtain ⟨hpoint, hquote, hspace⟩ := hother
  have hcomment : c = '/' → u.head? = none := fun h => by rw [hslash h]; rfl
  obtain ⟨p, hp, hmakes⟩ := h
  rcases text_cases hp.mem hp.takes.fits.text with ⟨hstart, -⟩ | ⟨-, hstart⟩ | ⟨-, hstart⟩ | ⟨-, hstart⟩ |
    ⟨-, hstart, hnext⟩ | ⟨-, hstart, hnext⟩ | ⟨x, hx, rfl, htext⟩
  · rw [hword] at hstart
    cases hstart
  · rw [hdigit] at hstart
    exact absurd (hstart.resolve_left Bool.false_ne_true) hpoint
  · exact absurd hstart hquote
  · rw [hspace] at hstart
    cases hstart
  · rw [hcomment hstart] at hnext
    cases hnext
  · rw [hcomment hstart] at hnext
    cases hnext
  · exact ⟨x, hx, kind_of_makes hmakes (hkinds x hx), htext⟩

/-- A slash alone is an operator. -/
theorem slash_of_scans (h : Scans unary ['/'] w t) : t = .slash := by
  have hslash : ∀ x ∈ symbols, x.2.toList = ['/'] → x.1 = .slash := by decide
  obtain ⟨x, hx, rfl, htext⟩ := symbol_of_scans (by decide) (by decide) (by decide) (fun _ => rfl) h
  exact hslash x hx htext.symm

/-- What begins with a star is one of two operators. -/
theorem star_of_scans (h : Scans unary ('*' :: u) w t) : t ∈ starKinds := by
  have hstar : ∀ x ∈ symbols, x.2.toList.head? = some '*' → x.1 ∈ starKinds := by decide
  obtain ⟨x, hx, rfl, htext⟩ := symbol_of_scans (by decide) (by decide) (by decide)
    (fun h => absurd h (by decide)) h
  exact hstar x hx (by rw [← htext]; rfl)

/-- The first token of a text is of the kinds that its first character begins. -/
theorem Tokens.starts_among {kinds : List Terminal} {position : ℕ} {ls : List Lexeme}
    (hkinds : ∀ {v w : List Char} {t : Terminal}, Scans unary (c :: v) w t → t ∈ kinds)
    (htrivia : ∀ k ∈ kinds, k.isTrivia = false) (h : Tokens unary position (c :: u) ls) :
    ∃ l ∈ ls.head?, l.kind ∈ kinds := by
  generalize hcs : c :: u = cs at h
  have hfirst : ∀ {v w : List Char} {t : Terminal}, Scans unary v w t → c :: u = v ++ w → t ∈ kinds := by
    intro v w t hscan hsplit
    obtain ⟨d, v, rfl⟩ := List.exists_cons_of_ne_nil hscan.ne_nil
    obtain ⟨rfl, -⟩ := List.cons.inj hsplit
    exact hkinds hscan
  cases h with
  | done => cases hcs
  | trivia hscan ht =>
    rw [htrivia _ (hfirst hscan hcs)] at ht
    cases ht
  | token hscan => exact ⟨_, rfl, hfirst hscan hcs⟩

/-- Where a text begins with a star, so does its first token. -/
theorem Tokens.starts_star {position : ℕ} {ls : List Lexeme} (h : Tokens unary position ('*' :: u) ls) :
    ∃ l ∈ ls.head?, l.kind ∈ starKinds := h.starts_among star_of_scans (by decide)

/-- At a comma the comma is read. -/
theorem scans_comma (rest : List Char) : Scans unary [','] rest .comma := scans_of_scan rfl

/-- Behind a blank among words, blanks and one of the words follow. -/
theorem dropWhile_spaced {more : List String}
    (hfirm : ∀ word ∈ more, word.toList ≠ [] ∧ ∀ d ∈ word.toList, Text.isBlank d = false) {y z : List Char}
    (h : y ++ z ∈ spaced more) (hz : z.head?.any Text.isBlank = true) :
    ∃ word ∈ more, ∃ tail, z.dropWhile Text.isBlank = word.toList ++ tail := by
  induction more generalizing y with
  | nil =>
    obtain ⟨-, rfl⟩ := List.append_eq_nil_iff.1 ((Language.mem_one _).1 h)
    cases hz
  | cons word more ih =>
    obtain ⟨⟨hne, hword⟩, hmore⟩ := List.forall_mem_cons.1 hfirm
    have hbehind : ∀ {y : List Char}, y ++ z ∈ spaced more → ∃ other ∈ word :: more, ∃ tail,
        z.dropWhile Text.isBlank = other.toList ++ tail := fun h =>
      (ih hmore h).imp fun other => And.imp_left (List.mem_cons_of_mem word)
    obtain ⟨_, ⟨blanks, hblanks, _, rfl, rfl⟩, more', hmore', hsplit⟩ := h
    replace hsplit : blanks ++ word.toList ++ more' = y ++ z := hsplit
    rcases List.append_eq_append_iff.1 hsplit with ⟨s, rfl, rfl⟩ | ⟨s, hs, rfl⟩
    · exact hbehind hmore'
    rcases List.append_eq_append_iff.1 hs with ⟨r, rfl, hr⟩ | ⟨r, rfl, rfl⟩
    · -- the rest of the word begins with no blank
      cases s with
      | nil => exact hbehind (y := []) hmore'
      | cons d s =>
        have hd : Text.isBlank d = true := hz
        rw [hword d (by rw [hr]; simp)] at hd
        cases hd
    · refine ⟨word, List.mem_cons_self, more', ?_⟩
      obtain ⟨d, letters, hletters⟩ := List.exists_cons_of_ne_nil hne
      have hd : Text.isBlank d = false := hword d (by rw [hletters]; exact List.mem_cons_self)
      have hall : ∀ d ∈ r, Text.isBlank d = true := fun d hd =>
        (mem_charsOf.1 hblanks).2 d (List.mem_append_right _ hd)
      rw [List.append_assoc, List.dropWhile_append_of_pos hall, hletters, List.cons_append,
        List.dropWhile_cons_of_neg (by simp [hd])]

/-- **No builtin name of several words reaches over blanks** behind which neither a further word of such a name
begins nor the parenthesis of its arguments stands. -/
theorem not_straddles (gap : List Char) (hgap : ∀ d ∈ gap, Text.isBlank d = true) (hne : gap ≠ [])
    (hc : Text.isBlank c = false) (hparen : c ≠ '(')
    (hinitial : ∀ x ∈ phrases, ∀ word ∈ x.2.2, word.toList.head? ≠ some c) :
    ¬ Straddles unary before (gap ++ c :: rest) := by
  have hdrop : (gap ++ c :: rest).dropWhile Text.isBlank = c :: rest := by
    rw [List.dropWhile_append_of_pos hgap, List.dropWhile_cons_of_neg (by simp [hc])]
  rintro ⟨a, u, blanks, more, -, hsplit, -, ⟨x, hx, hu⟩, hblanks, hstart, hstop⟩
  -- the place is inside the name or the blanks behind it
  obtain ⟨front, rfl⟩ := List.prefix_of_prefix_length_le ⟨_, hsplit.symm⟩ (List.prefix_append before _) hstart.le
  rw [List.append_assoc] at hsplit
  have hbehind : front ++ (gap ++ c :: rest) = u ++ blanks ++ '(' :: more := by
    rw [List.append_cancel_left hsplit, List.append_assoc]
  obtain ⟨z, hz, hrest⟩ : ∃ z, u ++ blanks = front ++ z ∧ gap ++ c :: rest = z ++ '(' :: more := by
    rcases List.append_eq_append_iff.1 hbehind with ⟨z, hz, hrest⟩ | ⟨z, rfl, -⟩
    · exact ⟨z, hz, hrest⟩
    · simp only [List.length_append] at hstop
      omega
  rw [hrest] at hdrop
  have hall : (∀ d ∈ z, Text.isBlank d = true) → False := by
    intro hall
    rw [List.dropWhile_append_of_pos hall, List.dropWhile_cons_of_neg (by decide)] at hdrop
    exact hparen (List.cons.inj hdrop).1.symm
  rcases List.append_eq_append_iff.1 hz with ⟨s, -, rfl⟩ | ⟨s, rfl, rfl⟩
  · exact hall fun d hd => hblanks d (List.mem_append_right _ hd)
  cases s with
  | nil => exact hall hblanks
  | cons d s =>
    have hd : Text.isBlank d = true := by
      obtain ⟨b, gap, rfl⟩ := List.exists_cons_of_ne_nil hne
      obtain ⟨rfl, -⟩ := List.cons.inj hrest
      exact hgap b List.mem_cons_self
    -- the first word is one like the others, behind no blank
    obtain ⟨words, hwords, hspaced⟩ := mem_spelled_mul.1 hu
    obtain ⟨hfirst, hothers⟩ := phrases_solid x hx
    have hmore : ∀ word ∈ x.2.2, word.toList ≠ [] ∧ ∀ d ∈ word.toList, Text.isBlank d = false := by
      intro word hword
      obtain ⟨d, hd, -⟩ := phrases_firm x hx word hword
      exact ⟨List.ne_nil_of_mem (List.mem_of_mem_head? hd), hothers word hword⟩
    have hword : ∃ word ∈ x.2.2, ∃ tail, (d :: s).dropWhile Text.isBlank = word.toList ++ tail := by
      rcases List.append_eq_append_iff.1 hwords with ⟨r, hr, hrs⟩ | ⟨r, rfl, hr⟩
      · cases r with
        | nil => exact dropWhile_spaced (y := []) hmore (by rw [hrs]; exact hspaced) hd
        | cons b r =>
          obtain ⟨rfl, -⟩ := List.cons.inj hrs
          rw [hfirst d (by rw [hr]; simp)] at hd
          cases hd
      · exact dropWhile_spaced hmore (by rw [← hr]; exact hspaced) hd
    obtain ⟨word, hword, tail, htail⟩ := hword
    obtain ⟨b, letters, hletters⟩ := List.exists_cons_of_ne_nil (hmore word hword).1
    rw [List.append_assoc, List.dropWhile_append, htail, hletters] at hdrop
    refine hinitial x hx word hword ?_
    rw [hletters]
    exact congrArg some (List.cons.inj hdrop).1

/-- **A text has the same tokens before a blank**, unless the last two are the head of a comment or a builtin name
of several words reaches over the blank. A line comment at its end goes on up to a line break. -/
theorem Tokens.leading_blank {position : ℕ} {cs : List Char} {ls : List Lexeme} (h : Tokens unary position cs ls)
    (hslash : ls.IsChain Lexeme.NoComment) (hc : isSpace c = true) (hline : c = '\n' ∨ ¬ EndsInComment unary cs)
    (hno : ∀ before, ¬ Straddles unary before (c :: rest)) : Leading unary (c :: rest) position cs ls := by
  induction h with
  | done => exact .done
  | @trivia position v w t ls hscan ht _ ih =>
    have hbehind := hline.imp_right fun hends h => hends (.behind hscan h)
    have hkind : t = .blank ∨ t = .blockComment ∨ t = .lineComment := by
      cases t <;> first | cases ht; done | simp
    rcases hkind with rfl | rfl | rfl
    · exact .spaces (spaces_of_scans hscan) (ih hslash hbehind)
    · exact .comment (.inl rfl) (hscan.block _) (ih hslash hbehind)
    · refine .comment (.inr rfl) (hscan.line ?_) (ih hslash hbehind)
      have hends := hscan.line_ends
      cases w with
      | nil =>
        rintro d ⟨⟩
        exact hline.resolve_right fun hnot => hnot (by rw [List.append_nil]; exact .here hscan)
      | cons d w => exact hends
  | @token position v w t ls hscan ht htokens ih =>
    have hbehind := hline.imp_right fun hends h => hends (.behind hscan h)
    refine .token ht ?_ (ih hslash.tail hbehind)
    cases hphrase : isPhrase t with
    | true =>
      obtain ⟨a, ha, rfl, hfits⟩ := phrase_of_scans hscan hphrase
      obtain ⟨blanks, more, rfl, hblanks⟩ := hfits.ahead rfl
      exact scans_phrase ha ⟨hfits.text, fun _ => ⟨blanks, _, by rw [List.append_assoc]; rfl, hblanks⟩⟩
    | false =>
      have hkinds : t ≠ .blank ∧ t ≠ .blockComment ∧ t ≠ .lineComment := by
        refine ⟨?_, ?_, ?_⟩ <;> rintro rfl <;> cases ht
      have halone : Scans unary v (w ++ []) t := by rwa [List.append_nil]
      refine halone.respaced hphrase hkinds.1 hkinds.2.1 (fun h => absurd h hkinds.2.2) (isBlank_of_isSpace hc) ?_
        (phrases_miss_respaced hscan.ne_nil hc (halone.phrases_miss hphrase) (hno _))
      -- no star follows a slash, so no end of a comment further on matters
      intro hv hstar _
      subst hv
      obtain ⟨u, rfl⟩ := List.head?_eq_some_iff.1 hstar
      obtain ⟨l, hl, hkind⟩ := htokens.starts_star
      exact absurd hkind ((List.isChain_cons.1 hslash).1 l hl (slash_of_scans hscan))

/-- **A text has the same tokens before a line break and a comma**, unless the last two are the head of a
comment. -/
theorem Tokens.leading_break {position : ℕ} {cs : List Char} {ls : List Lexeme} (h : Tokens unary position cs ls)
    (hslash : ls.IsChain Lexeme.NoComment) (rest : List Char) :
    Leading unary ('\n' :: ',' :: rest) position cs ls :=
  h.leading_blank hslash (by decide) (.inl rfl) fun _ =>
    not_straddles ['\n'] (List.forall_mem_singleton.2 (by decide)) (List.cons_ne_nil _ _) (by decide)
      (by decide) (by decide)

end Breaks

/-! ## Some sources in one -/

/-- Some sources in one, with a line break and a comma between each two of them. -/
def commaList (sources : List String) : String := "\n,".intercalate sources

theorem commaList_singleton (s : String) : commaList [s] = s := String.intercalate_singleton

theorem commaList_cons {sources : List String} (h : sources ≠ []) (s : String) :
    (commaList (s :: sources)).toList = s.toList ++ '\n' :: ',' :: (commaList sources).toList := by
  unfold commaList
  rw [String.intercalate_cons_of_ne_nil h, String.toList_append, String.toList_append, List.append_assoc]
  rfl

/-- A source that is one expression, with its tokens and its tree. -/
structure Alone (s : String) (ls : List Lexeme) (t : Tree) : Prop where
  tokens : Tokens false 0 s.toList ls
  read : (Grammar.expression (ls.length + 1)).all? ⟨0, ls⟩ = some t

/-- The comma at a place. -/
def commaAt (k : ℕ) : Lexeme := ⟨.comma, ",", k, k + 1⟩

/-- The trees and the tokens of some sources behind `k` characters, and the tokens of all, with commas between
them. -/
inductive Joined : ℕ → List String → List Tree → List (List Lexeme) → List Lexeme → Prop where
  | last {k : ℕ} {s : String} {ls : List Lexeme} {t : Tree} : Alone s ls t →
    Joined k [s] [t.moved k] [ls.map (Lexeme.moved k)] (ls.map (Lexeme.moved k))
  | more {k : ℕ} {s : String} {ls : List Lexeme} {t : Tree} {sources : List String} {ts : List Tree}
    {rows : List (List Lexeme)} {w : List Lexeme} : Alone s ls t →
    Joined (k + s.length + 2) sources ts rows w →
      Joined k (s :: sources) (t.moved k :: ts) (ls.map (Lexeme.moved k) :: rows)
        (ls.map (Lexeme.moved k) ++ commaAt (k + s.length + 1) :: w)

section Joined

variable {k : ℕ} {s : String} {ls w : List Lexeme} {t : Tree} {sources : List String} {ts : List Tree}
  {rows : List (List Lexeme)} {span : Option Span}

namespace Alone

theorem tells (h : Alone s ls t) : Nonterminal.expression.Tells ls t :=
  (Grammar.yields_expression (ls.length + 1)).of_all? (c := ⟨0, ls⟩) h.tokens.ordered h.read

/-- No two tokens of an expression are the head of a comment. -/
theorem no_comment (h : Alone s ls t) : ls.IsChain Lexeme.NoComment := by
  have hd : Derives false [.rule .expression] ls [t] := h.tells.derives_last
  exact (hd.no_comment (by decide)).1

end Alone

section Readings

variable {e : Reader Tree} {c : Cursor}

/-- What all tokens of a source are read as is a list of expressions. -/
theorem all?_of_complete (he : e.Yields Nonterminal.expression.Tells) (ho : c.Ordered)
    (h : (Grammar.expressions e c).complete? = some t) : ∃ us, (Reader.separated e).all? c = some us ∧
      t = .node .expressions (c.rest.head?.map fun l => ⟨l.start, c.last⟩) us := by
  rw [Reader.all?_eq_complete (Grammar.yields_expressions he) ho] at h
  unfold Grammar.expressions at h
  rw [Reader.all?_rule] at h
  obtain ⟨us, hus, rfl⟩ := Option.map_eq_some_iff.1 h
  exact ⟨us, hus, rfl⟩

/-- A list of all tokens that has one item is that item. -/
theorem all?_of_separated {P : List Lexeme → Tree → Prop} (h : e.Yields P)
    (hdesc : Readings.Descending (e c).found) (ho : c.Ordered) (hall : (Reader.separated e).all? c = some [t]) :
    e.all? c = some t := by
  obtain ⟨⟨items, d⟩, hread, hitems⟩ := Option.map_eq_some_iff.1 hall
  subst hitems
  have hmem : (t, d) ∈ (e c).found := Reader.mem_of_separated h (List.mem_of_find?_eq_some hread)
  obtain ⟨w, hw, -⟩ := (h c).spans _ hmem
  have hstop : d.stop = c.last := by simpa using List.find?_some hread
  exact Reader.all?_of_mem h.steady hdesc ho hmem ((hw.rest_nil_iff ho).2 hstop)

end Readings

/-- **A source that is one expression.** -/
theorem alone_of_parse (h : parse false s = .ok (.node .expressions span [t])) : ∃ ls, Alone s ls t := by
  obtain ⟨ls, htokens, -⟩ := tells_of_parse h
  have hlex : lex false s = ⟨ls, none⟩ := lex_eq_iff.2 htokens
  have hread := (parse_eq_ok.1 h).2
  rw [hlex] at hread
  have he := Grammar.yields_expression (ls.length + 1)
  have ho : Cursor.Ordered ⟨0, ls⟩ := htokens.ordered
  obtain ⟨us, hus, hnode⟩ := all?_of_complete he ho hread
  obtain ⟨-, -, rfl⟩ := Tree.node.inj hnode
  exact ⟨ls, htokens, all?_of_separated he (Grammar.descending_expression (ls.length + 1) ⟨0, ls⟩) ho hus⟩

theorem Joined.sources_ne_nil (h : Joined k sources ts rows w) : sources ≠ [] := by
  cases h <;> exact List.cons_ne_nil _ _

/-- **The tokens of some sources in one** are those of each of them, with commas between them. -/
theorem Joined.tokens (h : Joined k sources ts rows w) : Tokens false k (commaList sources).toList w := by
  have hplaced : ∀ {k : ℕ} {s : String} {ls : List Lexeme} {t : Tree}, Alone s ls t →
      Tokens false k s.toList (ls.map (Lexeme.moved k)) := by
    intro k s ls t h
    have hmoved := h.tokens.moved k
    rwa [Nat.zero_add] at hmoved
  induction h with
  | last h =>
    rw [commaList_singleton]
    exact hplaced h
  | @more k s ls t sources ts rows w h hmore ih =>
    have hslash : (ls.map (Lexeme.moved k)).IsChain Lexeme.NoComment := (List.isChain_map _).2 h.no_comment
    rw [commaList_cons hmore.sources_ne_nil, ((hplaced h).leading_break hslash _).tokens_iff]
    refine ⟨_, rfl, ?_⟩
    rw [String.length_toList, tokens_space_iff (by decide)]
    exact .token (scans_comma _) rfl ih

theorem Joined.separated (h : Joined k sources ts rows w) : Separated rows w := by
  induction h with
  | last => exact .last _
  | more _ _ ih => exact .more rfl ih

/-- The tokens of the one source are split at the commas into those of the others. -/
theorem Joined.splits (h : Joined k sources ts rows w) : SplitsInto w rows := by
  refine ⟨h.separated, ?_⟩
  have hplaced : ∀ {k : ℕ} {s : String} {ls : List Lexeme} {t : Tree}, Alone s ls t →
      ls.map (Lexeme.moved k) ∈ Nonterminal.expression.language := fun h =>
    mem_language_of_kinds ⟨_, h.tells⟩ (by rw [List.map_map]; rfl)
  induction h with
  | last h => exact List.forall_mem_singleton.2 (hplaced h)
  | more h _ ih => exact List.forall_mem_cons.2 ⟨hplaced h, ih⟩

end Joined

end Criterion

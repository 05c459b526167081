import Criterion.Proofs.Gaps
import Criterion.Proofs.Layout

/-!
# Other blanks between tokens

A source without comments is its tokens with gaps between them, runs of blanks or nothing. With other gaps, none of
them empty, it has the same tokens.

* `interleave`: texts with gaps before, between and behind them.
* `Spread`: a text of tokens and gaps, and another one with other gaps.
* `afterWords_of_spread`: what is a builtin name of several words in the other text is one in the text.
* `Spread.tokens`: **the other text has the same tokens.**
* `spread_of_tokens`: a source that is its tokens with gaps between them is such a text.
-/

namespace Criterion

open Computability Lexer

/-- Texts with a gap before each of them and one behind the last. -/
def interleave : (gaps texts : List (List Char)) → List Char
  | [], _ => []
  | gap :: _, [] => gap
  | gap :: gaps, text :: texts => gap ++ (text ++ interleave gaps texts)

/-- A run of blanks that may stand between tokens. -/
def IsGap (gap : List Char) : Prop := ∀ c ∈ gap, isSpace c = true

instance (gap : List Char) : Decidable (IsGap gap) :=
  decidable_of_iff (gap.all isSpace = true) List.all_eq_true

namespace Lexer

variable {unary : Bool} {t : Terminal} {v w w' cs : List Char} {c : Char}

/-- No token begins with a blank. -/
theorem Scans.firm (h : Scans unary v w t) (ht : t.isTrivia = false) :
    ∃ c rest, v = c :: rest ∧ Text.isBlank c = false := by
  obtain ⟨c, rest, rfl⟩ := List.exists_cons_of_ne_nil h.ne_nil
  refine ⟨c, rest, rfl, Bool.eq_false_of_not_eq_true fun hc => ?_⟩
  obtain ⟨p, hp, hmakes⟩ := h
  obtain rfl := eq_blank hp.mem hp.takes.fits.text hc
  rw [kind_of_makes hmakes (by decide)] at ht
  cases ht

/-- Only words begin with a letter. -/
theorem eq_name {p : Pattern} (hp : p ∈ patterns) (hcalled : p.called = false) (hv : c :: v ∈ p.text)
    (hc : isWordStart c = true) : p = namePattern := by
  have hsymbols : ∀ x ∈ symbols, (x.2.toList.all fun c => !isWordStart c) = true := by decide
  rcases text_cases hp hv with ⟨-, h | rfl⟩ | ⟨-, hdigit | rfl⟩ | ⟨-, rfl⟩ | ⟨-, hspace⟩ | ⟨-, rfl, -⟩ |
    ⟨-, rfl, -⟩ | ⟨x, hx, -, htext⟩
  · rw [h] at hcalled
    cases hcalled
  · rfl
  · rw [isDigit_of_wordStart hc] at hdigit
    cases hdigit
  · exact absurd hc (by decide)
  · exact absurd hc (by decide)
  · have hblank := isBlank_of_isSpace hspace
    rw [isBlank_of_wordPart (by simp [isWordPart, hc])] at hblank
    cases hblank
  · exact absurd hc (by decide)
  · exact absurd hc (by decide)
  · have hall := List.all_eq_true.1 (hsymbols x hx) c (htext ▸ List.mem_cons_self)
    rw [hc] at hall
    cases hall

/-- A word that is no builtin name of several words goes as far as it can. -/
theorem Scans.word (h : Scans unary (c :: v) w t) (ht : isPhrase t = false) (hc : isWordStart c = true) :
    (∀ d ∈ c :: v, isWordPart d = true) ∧ ∀ d ∈ w.head?, isWordPart d = false := by
  have hphrases := h.phrases_miss ht
  obtain ⟨p, hp, -⟩ := h
  have hcalled : p.called = false := by
    refine Bool.eq_false_of_not_eq_true fun hcalled => ?_
    obtain ⟨x, hx, rfl⟩ := (called_iff_phrase hp.mem).1 hcalled
    exact hphrases x hx _ _ rfl hp.takes.fits
  obtain rfl := eq_name hp.mem hcalled hp.takes.fits.text hc
  obtain ⟨d, rest, hrest, hd, hparts⟩ := mem_charOf_mul.1 hp.takes.fits.text
  obtain ⟨rfl, rfl⟩ := List.cons.inj hrest
  rw [mem_charOf_kstar] at hparts
  refine ⟨List.forall_mem_cons.2 ⟨by simp [isWordPart, hd], hparts⟩, fun e he => ?_⟩
  obtain ⟨w, rfl⟩ := List.head?_eq_some_iff.1 he
  refine Bool.eq_false_of_not_eq_true fun hpart => ?_
  -- the word would go on
  have hlonger : c :: (v ++ [e]) ∈ namePattern.text := mem_charOf_mul.2 ⟨c, _, rfl, hc,
    mem_charOf_kstar.2 (List.forall_mem_append.2 ⟨hparts, List.forall_mem_singleton.2 hpart⟩)⟩
  have hbest := hp.takes.best (c :: (v ++ [e])) w (by simp) (fits_of_text rfl hlonger)
  simp only [namePattern, plainPattern, Bool.false_eq_true, if_false, List.length_cons, List.length_append,
    List.length_nil] at hbest
  omega

/-- A word ends where what is no part of a word comes next. -/
theorem eq_of_words (hv : ∀ c ∈ v, isWordPart c = true) (hcs : ∀ c ∈ cs, isWordPart c = true)
    (hw : ∀ c ∈ w.head?, isWordPart c = false) (hw' : ∀ c ∈ w'.head?, isWordPart c = false)
    (h : v ++ w = cs ++ w') : v = cs ∧ w = w' := by
  have hrun : ∀ {v w : List Char}, (∀ c ∈ v, isWordPart c = true) → (∀ c ∈ w.head?, isWordPart c = false) →
      (v ++ w).takeWhile isWordPart = v := by
    intro v w hv hw
    cases w with
    | nil => rw [List.append_nil, List.takeWhile_eq_self_iff.2 hv]
    | cons c w => exact takeWhile_append_eq hv (hw c rfl) w
  have hsame := hrun hv hw
  rw [h, hrun hcs hw'] at hsame
  subst hsame
  exact ⟨rfl, List.append_cancel_left h⟩

/-- A text that begins with a blank begins with no part of a word. -/
theorem isWordPart_of_starts (h : ∃ rest, w = c :: rest) (hc : Text.isBlank c = true) :
    ∀ d ∈ w.head?, isWordPart d = false := by
  obtain ⟨rest, rfl⟩ := h
  intro d hd
  rw [← Option.some.inj hd]
  exact isWordPart_of_blank hc

/-! ## Texts with other gaps -/

/-- A text of tokens and gaps, and a text of the same tokens and other gaps, of which none is empty. -/
inductive Spread (unary : Bool) : List Char → List Char → List (Terminal × List Char) → Prop where
  | last {gap gap' : List Char} : IsGap gap → gap' ≠ [] → IsGap gap' → Spread unary gap gap' []
  | token {gap gap' v w w' : List Char} {t : Terminal} {ts : List (Terminal × List Char)} : IsGap gap →
    gap' ≠ [] → IsGap gap' → t.isTrivia = false → Scans unary v w t → Spread unary w w' ts →
      Spread unary (gap ++ (v ++ w)) (gap' ++ (v ++ w')) ((t, v) :: ts)

variable {ts : List (Terminal × List Char)}

theorem isBlank_of_gap {gap : List Char} (h : IsGap gap) : ∀ c ∈ gap, Text.isBlank c = true :=
  fun c hc => isBlank_of_isSpace (h c hc)

/-- The other text begins with a blank. -/
theorem Spread.starts (h : Spread unary w w' ts) : ∃ c, (∃ rest, w' = c :: rest) ∧ isSpace c = true := by
  cases h with
  | last _ hne hgap' =>
    obtain ⟨c, gap', rfl⟩ := List.exists_cons_of_ne_nil hne
    exact ⟨c, ⟨gap', rfl⟩, hgap' c List.mem_cons_self⟩
  | token _ hne hgap' =>
    obtain ⟨c, gap', rfl⟩ := List.exists_cons_of_ne_nil hne
    exact ⟨c, ⟨_, rfl⟩, hgap' c List.mem_cons_self⟩

/-- The other text begins with no part of a word. -/
theorem Spread.starts_blank (h : Spread unary w w' ts) : ∀ c ∈ w'.head?, isWordPart c = false := by
  obtain ⟨c, hstarts, hc⟩ := h.starts
  exact isWordPart_of_starts hstarts (isBlank_of_isSpace hc)

/-- An opening parenthesis follows in both texts or in none. -/
theorem Spread.called_iff (h : Spread unary w w' ts) : (w'.dropWhile Text.isBlank).head? = some '(' ↔
    (w.dropWhile Text.isBlank).head? = some '(' := by
  cases h with
  | last hgap _ hgap' =>
    rw [List.dropWhile_eq_nil_iff.2 (isBlank_of_gap hgap), List.dropWhile_eq_nil_iff.2 (isBlank_of_gap hgap')]
  | token hgap _ hgap' ht hscan _ =>
    obtain ⟨c, rest, rfl, hc⟩ := hscan.firm ht
    rw [List.dropWhile_append_of_pos (isBlank_of_gap hgap), List.dropWhile_append_of_pos (isBlank_of_gap hgap'),
      List.cons_append, List.cons_append, List.dropWhile_cons_of_neg (by simp [hc]),
      List.dropWhile_cons_of_neg (by simp [hc])]
    rfl

/-- A later word of a builtin name: letters, and no first word of a builtin name. -/
structure IsLater (word : String) : Prop where
  starts : ∃ c letters, word.toList = c :: letters ∧ isWordStart c = true
  parts : ∀ c ∈ word.toList, isWordPart c = true
  later : ∀ x ∈ phrases, word.toList ≠ x.2.1.toList

theorem phrases_later : ∀ x ∈ phrases, ∀ word ∈ x.2.2, IsLater word := by
  have hstarts : ∀ x ∈ phrases, ∀ word ∈ x.2.2, word.toList.head?.any isWordStart = true := by decide
  have hparts : ∀ x ∈ phrases, ∀ word ∈ x.2.2, word.toList.all isWordPart = true := by decide
  have hlater : ∀ x ∈ phrases, ∀ word ∈ x.2.2, ∀ y ∈ phrases, word.toList ≠ y.2.1.toList := by decide +kernel
  intro x hx word hword
  refine ⟨?_, List.all_eq_true.1 (hparts x hx word hword), hlater x hx word hword⟩
  have hstart := hstarts x hx word hword
  cases hletters : word.toList with
  | nil =>
    rw [hletters] at hstart
    cases hstart
  | cons c letters =>
    rw [hletters] at hstart
    exact ⟨c, letters, rfl, hstart⟩

/-- Behind a word of a builtin name comes no part of a word. -/
theorem ends_of_afterWords {more : List String} {x : List Char} (hafter : afterWords? more w = some x)
    (hcalled : (x.dropWhile Text.isBlank).head? = some '(') : ∀ c ∈ w.head?, isWordPart c = false := by
  intro c hc
  cases more with
  | nil =>
    cases hafter
    obtain ⟨blanks, rest, rfl, hblanks⟩ := Lexer.called_iff.1 hcalled
    cases blanks with
    | nil =>
      cases hc
      decide
    | cons d blanks =>
      cases hc
      exact isWordPart_of_blank (hblanks c List.mem_cons_self)
  | cons word more =>
    rw [afterWords?] at hafter
    split at hafter
    · rename_i hblank
      rw [Option.mem_def.1 hc] at hblank
      exact isWordPart_of_blank hblank
    · cases hafter

/-- A builtin name begins with its first word, behind which comes a blank. -/
theorem phrase_starts {x : Terminal × String × List String} (hx : x ∈ phrases) (hv : v ∈ (phraseOf x).text) :
    ∃ u, v = x.2.1.toList ++ u ∧ u ∈ spaced x.2.2 ∧ ∃ c, (∃ rest, u = c :: rest) ∧ Text.isBlank c = true := by
  have hmore : ∀ x ∈ phrases, x.2.2 ≠ [] := by decide
  obtain ⟨u, rfl, hu⟩ := mem_spelled_mul.1 hv
  refine ⟨u, rfl, hu, ?_⟩
  obtain ⟨word, words, hwords⟩ := List.exists_cons_of_ne_nil (hmore x hx)
  have hu' : u ∈ charsOf Text.isBlank * spelled word * spaced words := by
    rw [hwords] at hu
    exact hu
  obtain ⟨_, ⟨blanks, hblanks, _, _, rfl⟩, _, _, rfl⟩ := hu'
  obtain ⟨hne, hall⟩ := mem_charsOf.1 hblanks
  obtain ⟨c, blanks, rfl⟩ := List.exists_cons_of_ne_nil hne
  exact ⟨c, ⟨_, rfl⟩, hall c List.mem_cons_self⟩

theorem phrases_first : ∀ x ∈ phrases, ∀ c ∈ x.2.1.toList, isWordPart c = true := by
  have htable : ∀ x ∈ phrases, x.2.1.toList.all isWordPart = true := by decide
  exact fun x hx => List.all_eq_true.1 (htable x hx)

/-- **What is a builtin name of several words in the other text is one in the text.** Behind a word stand the
later words, and between two words the gap was no empty one. -/
theorem afterWords_of_spread {more : List String} (hmore : ∀ word ∈ more, IsLater word) {x' : List Char}
    (hscan : Scans unary (c :: v) w t) (ht : isPhrase t = false) (hc : isWordStart c = true)
    (h : Spread unary w w' ts) (hafter : afterWords? more w' = some x')
    (hcalled : (x'.dropWhile Text.isBlank).head? = some '(') :
    ∃ x, afterWords? more w = some x ∧ (x.dropWhile Text.isBlank).head? = some '(' := by
  induction more generalizing c v w w' t ts with
  | nil =>
    cases hafter
    exact ⟨w, rfl, h.called_iff.1 hcalled⟩
  | cons word more ih =>
    obtain ⟨hword, hmore⟩ := List.forall_mem_cons.1 hmore
    obtain ⟨d, letters, hletters, hd⟩ := hword.starts
    rw [afterWords?] at hafter
    split at hafter
    case isFalse => cases hafter
    obtain ⟨behind, hbehind, hmoreafter⟩ := Option.bind_eq_some_iff.1 hafter
    have hsplit := List.isPrefixOf?_eq_some_iff_append_eq.1 hbehind
    have hends := ends_of_afterWords hmoreafter hcalled
    cases h with
    | last _ _ hgap' =>
      rw [List.dropWhile_eq_nil_iff.2 (isBlank_of_gap hgap'), hletters] at hsplit
      cases hsplit
    | @token gap gap' u w w' s ts hgap _ hgap' hs hscan' h =>
      obtain ⟨e, rest, rfl, he⟩ := hscan'.firm hs
      rw [List.dropWhile_append_of_pos (isBlank_of_gap hgap'), List.cons_append,
        List.dropWhile_cons_of_neg (by simp [he])] at hsplit
      obtain rfl : d = e := by
        rw [hletters] at hsplit
        exact (List.cons.inj hsplit).1
      have hplain : isPhrase s = false := by
        refine Bool.eq_false_of_not_eq_true fun hphrase => ?_
        obtain ⟨x, hx, -, hfits⟩ := phrase_of_scans hscan' hphrase
        obtain ⟨_, hu, -, b, ⟨u, rfl⟩, hblank⟩ := phrase_starts hx hfits.text
        -- a later word would be the first word of another name
        rw [← List.cons_append, hu, List.append_assoc] at hsplit
        have hbehind := isWordPart_of_starts ⟨u ++ w', List.cons_append⟩ hblank
        exact hword.later x hx (eq_of_words hword.parts (phrases_first x hx) hends hbehind hsplit).1
      have hparts := (hscan'.word hplain hd).1
      obtain ⟨hsame, rfl⟩ := eq_of_words hword.parts hparts hends h.starts_blank hsplit
      obtain ⟨x, hx, hcalledx⟩ := ih hmore hscan' hplain hd h hmoreafter
      refine ⟨x, ?_, hcalledx⟩
      -- without a gap the two words would be one
      have hgapne : gap ≠ [] := by
        rintro rfl
        have hpart := (hscan.word ht hc).2 d rfl
        rw [hparts d List.mem_cons_self] at hpart
        cases hpart
      have hblank : (gap ++ (d :: rest ++ w)).head?.any Text.isBlank = true := by
        obtain ⟨b, gap, rfl⟩ := List.exists_cons_of_ne_nil hgapne
        exact isBlank_of_isSpace (hgap b List.mem_cons_self)
      rw [afterWords?, if_pos hblank, List.dropWhile_append_of_pos (isBlank_of_gap hgap), List.cons_append,
        List.dropWhile_cons_of_neg (by simp [he]), hsame]
      exact (congrArg (Option.bind · (afterWords? more))
        (List.isPrefixOf?_eq_some_iff_append_eq.2 rfl)).trans hx

/-- No builtin name of several words comes about where another token stands. -/
theorem Spread.phrases_miss (h : Spread unary w w' ts) (hscan : Scans unary v w t) (ht : isPhrase t = false) :
    ∀ x ∈ phrases, (phraseOf x).Misses (v ++ w') := by
  intro x hx u x' hcs hfits
  obtain ⟨_, rfl, hmore, b, ⟨more, rfl⟩, hblank⟩ := phrase_starts hx hfits.text
  obtain ⟨c, v, rfl⟩ := List.exists_cons_of_ne_nil hscan.ne_nil
  have hfirst : ∀ x ∈ phrases, ∃ d letters, x.2.1.toList = d :: letters ∧ isWordStart d = true := by
    simp [phrases, isWordStart]
  obtain ⟨d, letters, hletters, hd⟩ := hfirst x hx
  have hc : isWordStart c = true := by
    rw [hletters] at hcs
    rw [(List.cons.inj hcs).1]
    exact hd
  rw [List.append_assoc] at hcs
  obtain ⟨hsame, hw'⟩ := eq_of_words (hscan.word ht hc).1 (phrases_first x hx) h.starts_blank
    (isWordPart_of_starts ⟨more ++ x', List.cons_append⟩ hblank) hcs
  have hafter := (afterWords?_eq_some (phrases_firm x hx)).2 ⟨_, hw', hmore⟩
  obtain ⟨y, hy, hcalled⟩ := afterWords_of_spread (phrases_later x hx) hscan ht hc h hafter
    (Lexer.called_iff.2 (hfits.ahead rfl))
  obtain ⟨u, rfl, hu⟩ := (afterWords?_eq_some (phrases_firm x hx)).1 hy
  refine hscan.phrases_miss ht x hx (x.2.1.toList ++ u) y ?_
    ⟨mem_spelled_mul.2 ⟨u, rfl, hu⟩, fun _ => Lexer.called_iff.1 hcalled⟩
  rw [hsame, List.append_assoc]

/-- **A token stands in the other text where it stood in the text.** -/
theorem Spread.scans (h : Spread unary w w' ts) (hscan : Scans unary v w t) (ht : t.isTrivia = false) :
    Scans unary v w' t := by
  obtain ⟨c, ⟨rest, rfl⟩, hspace⟩ := h.starts
  cases hphrase : isPhrase t with
  | true =>
    obtain ⟨a, ha, rfl, hfits⟩ := phrase_of_scans hscan hphrase
    exact scans_phrase ha ⟨hfits.text, fun _ =>
      Lexer.called_iff.1 (h.called_iff.2 (Lexer.called_iff.2 (hfits.ahead rfl)))⟩
  | false =>
    have hkinds : t ≠ .blank ∧ t ≠ .blockComment ∧ t ≠ .lineComment := by
      refine ⟨?_, ?_, ?_⟩ <;> rintro rfl <;> cases ht
    exact Scans.respaced (z := []) hscan hphrase hkinds.1 hkinds.2.1 (fun hline => absurd hline hkinds.2.2)
      (isBlank_of_isSpace hspace) (fun _ hz => nomatch hz) (h.phrases_miss hscan hphrase)

end Lexer

section Tokens

variable {unary : Bool} {position : ℕ} {cs cs' w w' : List Char} {ls : List Lexeme}
  {gaps gaps' texts : List (List Char)}
  {ts : List (Terminal × List Char)}

/-- **The other text has the same tokens.** -/
theorem Lexer.Spread.tokens (h : Spread unary w w' ts) (position : ℕ) : ∃ ls, Tokens unary position w' ls ∧
    ls.map Lexeme.face = ts.map fun (t, v) => (t, String.ofList v) := by
  induction h generalizing position with
  | @last _ gap' _ _ hgap' =>
    refine ⟨[], ?_, rfl⟩
    rw [← List.append_nil gap', tokens_spaces_iff hgap']
    exact .done
  | @token _ gap' v w w' t ts _ _ hgap' ht hscan h ih =>
    obtain ⟨ls, htokens, hls⟩ := ih (position + gap'.length + v.length)
    refine ⟨_, (tokens_spaces_iff hgap').2 (.token (h.scans hscan ht) ht htokens), ?_⟩
    rw [List.map_cons, List.map_cons, hls]
    rfl

/-- How many characters of a text are no blanks. -/
def ink (cs : List Char) : ℕ := cs.countP fun c => !isSpace c

theorem ink_append (v w : List Char) : ink (v ++ w) = ink v + ink w := List.countP_append

theorem ink_gap {gap : List Char} (h : IsGap gap) : ink gap = 0 :=
  List.countP_eq_zero.2 fun c hc => by simp [h c hc]

/-- The tokens of a text have no more ink than the text. -/
theorem Tokens.ink_le (h : Tokens unary position cs ls) : ink (ls.flatMap (·.text.toList)) ≤ ink cs := by
  induction h with
  | done => exact le_rfl
  | @trivia _ v w _ _ _ _ _ ih =>
    rw [ink_append]
    exact ih.trans (Nat.le_add_left _ _)
  | @token _ v w _ _ _ _ _ ih =>
    rw [List.flatMap_cons, String.toList_ofList, ink_append, ink_append]
    exact Nat.add_le_add_left ih _

/-- Gaps have no ink. -/
theorem ink_interleave (hlength : gaps.length = texts.length + 1) (hgaps : ∀ gap ∈ gaps, IsGap gap) :
    ink (interleave gaps texts) = ink texts.flatten := by
  induction texts generalizing gaps with
  | nil =>
    obtain ⟨gap, rfl⟩ := List.length_eq_one_iff.1 hlength
    exact ink_gap (hgaps gap List.mem_cons_self)
  | cons text texts ih =>
    obtain ⟨gap, gaps, rfl⟩ := List.exists_cons_of_length_pos (by omega : 0 < gaps.length)
    obtain ⟨hgap, hgaps⟩ := List.forall_mem_cons.1 hgaps
    rw [interleave, ink_append, ink_append, ink_gap hgap, ih (by simpa using hlength) hgaps,
      List.flatten_cons, ink_append, Nat.zero_add]

/-- The text of a token begins with no blank. -/
theorem Tokens.firm (h : Tokens unary position cs ls) :
    ∀ l ∈ ls, ∃ c rest, l.text.toList = c :: rest ∧ Text.isBlank c = false := by
  induction h with
  | done => exact List.forall_mem_nil _
  | trivia _ _ _ ih => exact ih
  | token hscan ht _ ih =>
    refine List.forall_mem_cons.2 ⟨?_, ih⟩
    rw [String.toList_ofList]
    exact hscan.firm ht

/-- What begins with its first token and has no more ink than its tokens begins with this token and no comment. -/
theorem Tokens.head_scans {l : Lexeme} {rest : List Char}
    (h : Tokens unary position (l.text.toList ++ rest) (l :: ls))
    (hink : ink rest = ink (ls.flatMap (·.text.toList))) :
    Scans unary l.text.toList rest l.kind ∧ l.kind.isTrivia = false ∧
      Tokens unary (position + l.text.toList.length) rest ls := by
  obtain ⟨c, letters, hletters, hc⟩ := h.firm l List.mem_cons_self
  have hne : l.text.toList ++ rest ≠ [] := by simp [hletters]
  obtain ⟨v, w, t, hsplit, hscan⟩ := exists_scans_of_tokens h hne
  have hink' : ink (v ++ w) = ink l.text.toList + ink (ls.flatMap (·.text.toList)) := by
    rw [← hsplit, ink_append, hink]
  rw [hsplit, tokens_append_iff hscan] at h
  obtain ⟨d, v, rfl⟩ := List.exists_cons_of_ne_nil hscan.ne_nil
  obtain rfl : c = d := by
    rw [hletters] at hsplit
    exact (List.cons.inj hsplit).1
  split at h
  · -- what is left out has ink of its own
    have hle := h.ink_le
    have hspace : isSpace c = false := by
      refine Bool.eq_false_of_not_eq_true fun hspace => ?_
      rw [isBlank_of_isSpace hspace] at hc
      cases hc
    have hpos : 0 < ink (c :: v) := List.countP_pos_iff.2 ⟨c, List.mem_cons_self, by simp [hspace]⟩
    rw [ink_append] at hink'
    rw [List.flatMap_cons, ink_append] at hle
    omega
  · rename_i ht
    obtain ⟨more, hl, hmore⟩ := h
    obtain ⟨rfl, rfl⟩ := List.cons.inj hl
    rw [String.toList_ofList] at hsplit ⊢
    obtain rfl := List.append_cancel_left hsplit
    exact ⟨hscan, Bool.eq_false_of_not_eq_true ht, hmore⟩

/-- **A source that is its tokens with gaps between them**, and the same tokens with other gaps. -/
theorem spread_of_tokens (h : Tokens unary position (interleave gaps (ls.map (·.text.toList))) ls)
    (hlength : gaps.length = ls.length + 1) (hgaps : ∀ gap ∈ gaps, IsGap gap)
    (hlength' : gaps'.length = ls.length + 1) (hgaps' : ∀ gap ∈ gaps', gap ≠ [] ∧ IsGap gap) :
    Spread unary (interleave gaps (ls.map (·.text.toList))) (interleave gaps' (ls.map (·.text.toList)))
      (ls.map fun l => (l.kind, l.text.toList)) := by
  induction ls generalizing gaps gaps' position with
  | nil =>
    obtain ⟨gap, rfl⟩ := List.length_eq_one_iff.1 hlength
    obtain ⟨gap', rfl⟩ := List.length_eq_one_iff.1 hlength'
    obtain ⟨hne, hgap'⟩ := hgaps' gap' List.mem_cons_self
    exact .last (hgaps gap List.mem_cons_self) hne hgap'
  | cons l ls ih =>
    obtain ⟨gap, gaps, rfl⟩ := List.exists_cons_of_length_pos (by omega : 0 < gaps.length)
    obtain ⟨gap', gaps', rfl⟩ := List.exists_cons_of_length_pos (by omega : 0 < gaps'.length)
    obtain ⟨hgap, hgaps⟩ := List.forall_mem_cons.1 hgaps
    obtain ⟨⟨hne, hgap'⟩, hgaps'⟩ := List.forall_mem_cons.1 hgaps'
    have hlength : gaps.length = ls.length + 1 := by simpa using hlength
    rw [List.map_cons, interleave, tokens_spaces_iff hgap] at h
    have hink : ink (interleave gaps (ls.map (·.text.toList))) = _ := ink_interleave (by simpa using hlength) hgaps
    rw [← List.flatMap_def] at hink
    obtain ⟨hscan, ht, hrest⟩ := h.head_scans hink
    exact .token hgap hne hgap' ht hscan (ih hrest hlength hgaps (by simpa using hlength') hgaps')

/-- **Other gaps between the tokens of a source without comments give a source with the same tokens.** -/
theorem tokens_respaced (h : Tokens unary position (interleave gaps (ls.map (·.text.toList))) ls)
    (hlength : gaps.length = ls.length + 1) (hgaps : ∀ gap ∈ gaps, IsGap gap)
    (hlength' : gaps'.length = ls.length + 1) (hgaps' : ∀ gap ∈ gaps', gap ≠ [] ∧ IsGap gap) :
    ∃ ls', Tokens unary position (interleave gaps' (ls.map (·.text.toList))) ls' ∧
      ls'.map Lexeme.face = ls.map Lexeme.face := by
  obtain ⟨ls', htokens, hls'⟩ := (spread_of_tokens h hlength hgaps hlength' hgaps').tokens position
  refine ⟨ls', htokens, hls'.trans ?_⟩
  rw [List.map_map]
  refine List.map_congr_left fun l _ => ?_
  exact congrArg (Prod.mk l.kind) String.ofList_toList

end Tokens

end Criterion

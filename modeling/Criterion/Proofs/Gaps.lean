import Criterion.Proofs.Spacing

/-!
# What stands between tokens

Blanks and comments leave nothing in the row of tokens, and what stands before a place has the same tokens
whatever stands behind it, as long as no builtin name of several words reaches over the place.

* `tokens_space_iff`: a blank in front of a text changes none of its tokens.
* `Leading`: the tokens of what stands in front of a text.
* `Reblanked`: texts that differ in their runs of white space only.
* `Leading.respaced`: **the tokens in front of a text, if the text begins with a blank instead.**
* `Leading.reblanked`: **the tokens in front of a text with other runs of white space.**
-/

namespace Criterion

open Computability Lexer

namespace Lexer

variable {unary : Bool} {t : Terminal} {v w w' cs : List Char} {c : Char}

/-! ## Blanks and comments -/

/-- At a blank the blanks are read. -/
theorem scan_space (hc : isSpace c = true) (cs : List Char) :
    scan? unary (c :: cs) = some (.blank, ((c :: cs).takeWhile isSpace).length) := by
  rcases isSpace_cases hc with rfl | rfl | rfl | rfl | rfl <;> rfl

theorem scans_space (hc : isSpace c = true) (cs : List Char) :
    Scans unary ((c :: cs).takeWhile isSpace) ((c :: cs).dropWhile isSpace) .blank := by
  refine scans_of_scan ?_
  rw [List.takeWhile_append_dropWhile]
  exact scan_space hc cs

/-- Only runs of blanks are read as blanks. -/
theorem spaces_of_scans (h : Scans unary v w .blank) : ∀ c ∈ v, isSpace c = true := by
  have hphrases : ∀ x ∈ phrases, x.1 ≠ .blank := by decide
  have hsymbols : ∀ x ∈ symbols, x.1 ≠ .blank := by decide
  obtain ⟨p, hp, hmakes⟩ := h
  have hkind : p.kind = .blank := by
    generalize ht : Terminal.blank = t at hmakes
    cases hmakes with
    | reserved => cases ht
    | plain => rfl
  have htext := hp.takes.fits.text
  rcases mem_patterns_iff.1 hp.mem with ⟨x, hx, rfl⟩ | rfl | rfl | rfl | rfl | rfl | rfl | ⟨x, hx, rfl⟩
  · exact absurd hkind (hphrases x hx)
  · cases hkind
  · cases hkind
  · cases hkind
  · exact (mem_charsOf.1 htext).2
  · cases hkind
  · cases hkind
  · exact absurd hkind (hsymbols x hx)

/-- Words, numbers, strings and blanks do not begin with a slash. -/
theorem misses_slash (cs : List Char) : ∀ q ∈ wordPatterns, q.Misses ('/' :: cs) := by
  have hkinds : ∀ q ∈ wordPatterns, q.kind ≠ .blockComment ∧ q.kind ≠ .lineComment ∧
      ∀ x ∈ symbols, q.kind ≠ x.1 := by
    simp [wordPatterns, phrases, symbols, phrasePattern, namePattern, numberPattern, stringPattern,
      blankPattern, plainPattern]
  intro q hq u x hcs hfits
  have hmem : q ∈ patterns := List.mem_append_left _ (List.mem_append_left _ hq)
  obtain ⟨d, u, rfl⟩ := List.exists_cons_of_ne_nil fun hnil => nil_notMem_text q hmem (hnil ▸ hfits.text)
  obtain rfl := (List.cons.inj hcs).1
  obtain ⟨hblock, hline, hsymbol⟩ := hkinds q hq
  rcases text_cases hmem hfits.text with ⟨hd, -⟩ | ⟨-, hd | hd⟩ | ⟨-, hd⟩ | ⟨-, hd⟩ | ⟨rfl, -⟩ | ⟨rfl, -⟩ |
    ⟨y, hy, rfl, -⟩
  · exact absurd hd (by decide)
  · exact absurd hd (by decide)
  · exact absurd hd (by decide)
  · exact absurd hd (by decide)
  · exact absurd hd (by decide)
  · exact hblock rfl
  · exact hline rfl
  · exact hsymbol y hy rfl

/-- The pattern of a comment wins among all patterns if it wins among those of comments. -/
theorem wins_comment {p : Pattern} (hstart : v.head? = some '/') (h : Wins [blockPattern, linePattern] p v w) :
    Wins patterns p v w := by
  obtain ⟨rest, rfl⟩ := List.head?_eq_some_iff.1 hstart
  exact .append_left (.append_right (misses_slash _) h)

theorem wins_of_comment (h : Scans unary v w t) (ht : t = .blockComment ∨ t = .lineComment) :
    ∃ p, p.kind = t ∧ (p = blockPattern ∨ p = linePattern) ∧ Wins patterns p v w := by
  have hphrases : ∀ x ∈ phrases, x.1 ≠ .blockComment ∧ x.1 ≠ .lineComment := by decide
  have hsymbols : ∀ x ∈ symbols, x.1 ≠ .blockComment ∧ x.1 ≠ .lineComment := by decide
  obtain ⟨p, hp, hmakes⟩ := h
  have hkind : p.kind = t := by
    cases hmakes with
    | reserved => rcases ht with ht | ht <;> cases ht
    | plain => rfl
  refine ⟨p, hkind, ?_, hp⟩
  rw [← hkind] at ht
  rcases mem_patterns_iff.1 hp.mem with ⟨x, hx, rfl⟩ | rfl | rfl | rfl | rfl | rfl | rfl | ⟨x, hx, rfl⟩
  · exact absurd ht (not_or.2 (hphrases x hx))
  · rcases ht with ht | ht <;> cases ht
  · rcases ht with ht | ht <;> cases ht
  · rcases ht with ht | ht <;> cases ht
  · rcases ht with ht | ht <;> cases ht
  · exact .inl rfl
  · exact .inr rfl
  · exact absurd ht (not_or.2 (hsymbols x hx))

/-- **A block comment is read whatever follows it.** -/
theorem Scans.block (h : Scans unary v w .blockComment) (w' : List Char) : Scans unary v w' .blockComment := by
  obtain ⟨p, hkind, rfl | rfl, hp⟩ := wins_of_comment h (.inl rfl)
  · have htext := hp.takes.fits.text
    obtain ⟨u, hu⟩ := mem_blockComment.1 htext
    have htakes : blockPattern.Takes v w' := by
      refine ⟨fits_of_text rfl htext, fun v' x hcs hfits => ?_⟩
      show v.length ≤ v'.length
      by_contra hshort
      -- a shorter comment would be one before the other text, too
      obtain ⟨y, rfl⟩ : ∃ y, v = v' ++ y := by
        rcases List.append_eq_append_iff.1 hcs with ⟨y, hy, -⟩ | ⟨y, rfl, -⟩
        · exact ⟨y, hy⟩
        · exact absurd (by simp) hshort
      exact hshort (hp.takes.best v' (y ++ w) (by simp) (fits_of_text rfl hfits.text))
    exact ⟨_, wins_comment (by rw [hu]; rfl) (.here htakes), .plain fun h => by cases h⟩
  · cases hkind

/-- Behind a line comment the line ends. -/
theorem Scans.line_ends (h : Scans unary v w .lineComment) : ∀ c ∈ w.head?, c = '\n' := by
  obtain ⟨p, hkind, rfl | rfl, hp⟩ := wins_of_comment h (.inr rfl)
  · cases hkind
  · intro c hc
    obtain ⟨rest, rfl⟩ := List.head?_eq_some_iff.1 hc
    obtain ⟨u, rfl, hu⟩ := mem_lineComment.1 hp.takes.fits.text
    by_contra hbreak
    have hlonger : '/' :: '/' :: (u ++ [c]) ∈ linePattern.text :=
      mem_lineComment.2 ⟨_, rfl, List.forall_mem_append.2 ⟨hu, List.forall_mem_singleton.2 hbreak⟩⟩
    have hbest := hp.takes.best ('/' :: '/' :: (u ++ [c])) rest (by simp) (fits_of_text rfl hlonger)
    simp only [linePattern, plainPattern, Bool.false_eq_true, if_false, List.length_cons, List.length_append,
      List.length_nil] at hbest
    omega

/-- **A line comment is read if the line ends behind it.** -/
theorem Scans.line (h : Scans unary v w .lineComment) (hw' : ∀ c ∈ w'.head?, c = '\n') :
    Scans unary v w' .lineComment := by
  obtain ⟨p, hkind, rfl | rfl, hp⟩ := wins_of_comment h (.inr rfl)
  · cases hkind
  · obtain ⟨u, rfl, hu⟩ := mem_lineComment.1 hp.takes.fits.text
    have hall : ∀ c ∈ u, (c != '\n') = true := fun c hc => by simpa using hu c hc
    have hends : w'.takeWhile (· != '\n') = [] ∧ w'.dropWhile (· != '\n') = w' := by
      cases w' with
      | nil => exact ⟨rfl, rfl⟩
      | cons c w' =>
        obtain rfl := hw' c rfl
        exact ⟨rfl, rfl⟩
    have htakes := takes_line (u ++ w')
    rw [List.takeWhile_append_of_pos hall, List.dropWhile_append_of_pos hall, hends.1, hends.2,
      List.append_nil] at htakes
    have hmiss : blockPattern.Misses ('/' :: '/' :: u ++ w') := by
      intro v' x hcs hfits
      obtain ⟨u', rfl⟩ := mem_blockComment.1 hfits.text
      cases hcs
    exact ⟨_, wins_comment rfl (.later hmiss (.here htakes)), .plain fun h => by cases h⟩

end Lexer

variable {unary : Bool} {position : ℕ} {cs rest : List Char} {c : Char} {ls ls₁ ls₂ : List Lexeme}

/-- **A blank in front of a text changes none of its tokens.** -/
theorem tokens_space_iff (hc : isSpace c = true) :
    Tokens unary position (c :: cs) ls ↔ Tokens unary (position + 1) cs ls := by
  have htrivia : Terminal.blank.isTrivia = true := rfl
  have hrun := @tokens_append_iff unary position _ _ _ ls (scans_space hc cs)
  rw [if_pos htrivia, List.takeWhile_append_dropWhile, List.takeWhile_cons_of_pos hc,
    List.dropWhile_cons_of_pos hc, List.length_cons] at hrun
  rw [hrun]
  cases cs with
  | nil => rfl
  | cons d cs =>
    by_cases hd : isSpace d = true
    · have hrest := @tokens_append_iff unary (position + 1) _ _ _ ls (scans_space hd cs)
      rw [if_pos htrivia, List.takeWhile_append_dropWhile] at hrest
      rw [hrest, Nat.add_right_comm, Nat.add_assoc]
    · rw [List.takeWhile_cons_of_neg hd, List.dropWhile_cons_of_neg hd]
      rfl

/-- Blanks in front of a text change none of its tokens. -/
theorem tokens_spaces_iff {gap : List Char} (hgap : ∀ c ∈ gap, isSpace c = true) :
    Tokens unary position (gap ++ cs) ls ↔ Tokens unary (position + gap.length) cs ls := by
  induction gap generalizing position with
  | nil => rfl
  | cons c gap ih =>
    obtain ⟨hc, hgap⟩ := List.forall_mem_cons.1 hgap
    rw [List.cons_append, tokens_space_iff hc, ih hgap, List.length_cons, Nat.add_right_comm, Nat.add_assoc]

/-! ## The tokens in front of a text -/

/-- In front of `rest`, the text consists of blanks, comments and the tokens `ls`. -/
inductive Leading (unary : Bool) (rest : List Char) : ℕ → List Char → List Lexeme → Prop where
  | done {position : ℕ} : Leading unary rest position [] []
  | blank {position : ℕ} {c : Char} {cs : List Char} {ls : List Lexeme} : isSpace c = true →
    Leading unary rest (position + 1) cs ls → Leading unary rest position (c :: cs) ls
  | comment {position : ℕ} {v cs : List Char} {t : Terminal} {ls : List Lexeme} :
    t = .blockComment ∨ t = .lineComment → Scans unary v (cs ++ rest) t →
      Leading unary rest (position + v.length) cs ls → Leading unary rest position (v ++ cs) ls
  | token {position : ℕ} {v cs : List Char} {t : Terminal} {ls : List Lexeme} : t.isTrivia = false →
    Scans unary v (cs ++ rest) t → Leading unary rest (position + v.length) cs ls →
      Leading unary rest position (v ++ cs)
        (⟨t, String.ofList v, position, position + v.length⟩ :: ls)

/-- **The tokens of a text are those in front of a place and those behind it.** -/
theorem Leading.tokens_iff (h : Leading unary rest position cs ls₁) : Tokens unary position (cs ++ rest) ls ↔
    ∃ ls₂, ls = ls₁ ++ ls₂ ∧ Tokens unary (position + cs.length) rest ls₂ := by
  induction h generalizing ls with
  | done => simp
  | @blank position c cs ls₁ hc _ ih =>
    rw [List.cons_append, tokens_space_iff hc, ih, List.length_cons, Nat.add_right_comm, Nat.add_assoc]
  | @comment position v cs t ls₁ ht hscan _ ih =>
    have htrivia : t.isTrivia = true := by rcases ht with rfl | rfl <;> rfl
    rw [List.append_assoc, tokens_append_iff hscan, if_pos htrivia, ih, List.length_append, Nat.add_assoc]
  | @token position v cs t ls₁ ht hscan _ ih =>
    rw [List.append_assoc, tokens_append_iff hscan, ht, if_neg Bool.false_ne_true, List.length_append,
      ← Nat.add_assoc]
    constructor
    · rintro ⟨more, rfl, hmore⟩
      obtain ⟨ls₂, rfl, h⟩ := ih.1 hmore
      exact ⟨ls₂, rfl, h⟩
    · rintro ⟨ls₂, rfl, h⟩
      exact ⟨ls₁ ++ ls₂, rfl, ih.2 ⟨ls₂, rfl, h⟩⟩

theorem Leading.spaces {gap : List Char} (hgap : ∀ c ∈ gap, isSpace c = true)
    (h : Leading unary rest (position + gap.length) cs ls) : Leading unary rest position (gap ++ cs) ls := by
  induction gap generalizing position with
  | nil => exact h
  | cons c gap ih =>
    obtain ⟨hc, hgap⟩ := List.forall_mem_cons.1 hgap
    refine .blank hc (ih hgap ?_)
    rwa [Nat.add_right_comm, Nat.add_assoc]

/-- In front of each token of a text are the tokens before it. -/
theorem Tokens.leading {before : List Char} {l : Lexeme} (h : Tokens unary position cs ls) (hcs : cs = before ++ rest)
    (hl : l ∈ ls) (hstart : l.start = position + before.length) :
    ∃ ls₁ ls₂, Leading unary rest position before ls₁ ∧ ls = ls₁ ++ l :: ls₂ ∧
      Tokens unary (position + before.length) rest (l :: ls₂) := by
  -- what is read first ends before the token
  have hsplit : ∀ {position : ℕ} {v w before : List Char} {ls : List Lexeme},
      Tokens unary (position + v.length) w ls → l ∈ ls → l.start = position + before.length →
        v ++ w = before ++ rest → ∃ before', before = v ++ before' ∧ w = before' ++ rest := by
    intro position v w before ls hrest hl hstart hcs
    have hle := (hrest.placed l hl).1
    obtain ⟨before', rfl⟩ := List.prefix_of_prefix_length_le ⟨w, hcs⟩ (List.prefix_append before rest) (by omega)
    rw [List.append_assoc] at hcs
    exact ⟨before', rfl, List.append_cancel_left hcs⟩
  induction h generalizing before with
  | done => exact absurd hl List.not_mem_nil
  | @trivia position v w t ls hscan ht hrest ih =>
    obtain ⟨before, rfl, rfl⟩ := hsplit hrest hl hstart hcs
    rw [List.length_append, ← Nat.add_assoc] at hstart ⊢
    obtain ⟨ls₁, ls₂, hleading, rfl, htokens⟩ := ih rfl hl hstart
    refine ⟨ls₁, ls₂, ?_, rfl, htokens⟩
    have hkind : t = .blank ∨ t = .blockComment ∨ t = .lineComment := by
      cases t <;> first | cases ht; done | simp
    rcases hkind with rfl | hkind
    · exact .spaces (spaces_of_scans hscan) hleading
    · exact .comment hkind hscan hleading
  | @token position v w t ls hscan ht hrest ih =>
    rcases List.mem_cons.1 hl with rfl | hl
    · obtain rfl : before = [] := List.eq_nil_of_length_eq_zero (by simpa using hstart)
      rw [List.nil_append] at hcs
      exact ⟨[], ls, .done, rfl, hcs ▸ .token hscan ht hrest⟩
    · obtain ⟨before, rfl, rfl⟩ := hsplit hrest hl hstart hcs
      rw [List.length_append, ← Nat.add_assoc] at hstart ⊢
      obtain ⟨ls₁, ls₂, hleading, rfl, htokens⟩ := ih rfl hl hstart
      exact ⟨_, ls₂, .token ht hscan hleading, rfl, htokens⟩

/-! ## Other white space -/

/-- Texts that differ in their runs of white space only. -/
inductive Reblanked : List Char → List Char → Prop where
  | nil : Reblanked [] []
  | char {c : Char} {v v' : List Char} : Text.isBlank c = false → Reblanked v v' →
    Reblanked (c :: v) (c :: v')
  | blanks {b b' v v' : List Char} : b ≠ [] → b' ≠ [] → (∀ c ∈ b, Text.isBlank c = true) →
    (∀ c ∈ b', Text.isBlank c = true) → Reblanked v v' → Reblanked (b ++ v) (b' ++ v')

namespace Reblanked

variable {v v' w w' : List Char}

theorem refl : ∀ v : List Char, Reblanked v v
  | [] => .nil
  | c :: v => by
    cases hc : Text.isBlank c with
    | false => exact .char hc (refl v)
    | true =>
      have hall : ∀ d ∈ [c], Text.isBlank d = true := List.forall_mem_singleton.2 hc
      exact @blanks [c] [c] v v (List.cons_ne_nil _ _) (List.cons_ne_nil _ _) hall hall (refl v)

theorem symm (h : Reblanked v v') : Reblanked v' v := by
  induction h with
  | nil => exact .nil
  | char hc _ ih => exact .char hc ih
  | blanks hb hb' hall hall' _ ih => exact .blanks hb' hb hall' hall ih

theorem append (h : Reblanked v v') (h' : Reblanked w w') : Reblanked (v ++ w) (v' ++ w') := by
  induction h with
  | nil => exact h'
  | char hc _ ih => exact .char hc ih
  | blanks hb hb' hall hall' _ ih =>
    rw [List.append_assoc, List.append_assoc]
    exact .blanks hb hb' hall hall' ih

/-- A character that is no blank is in both texts. -/
theorem of_cons (h : Reblanked v (c :: w')) (hc : Text.isBlank c = false) :
    ∃ w, v = c :: w ∧ Reblanked w w' := by
  generalize hv' : c :: w' = v' at h
  cases h with
  | nil => cases hv'
  | char _ h =>
    obtain ⟨rfl, rfl⟩ := List.cons.inj hv'
    exact ⟨_, rfl, h⟩
  | @blanks b b' _ _ _ hb' _ hall' _ =>
    cases b' with
    | nil => exact absurd rfl hb'
    | cons d b' =>
      obtain ⟨rfl, -⟩ := List.cons.inj hv'
      rw [hall' c List.mem_cons_self] at hc
      cases hc

theorem of_nil (h : Reblanked v []) : v = [] := by
  generalize hnil : ([] : List Char) = w at h
  cases h with
  | nil => rfl
  | char => cases hnil
  | blanks _ hb' => exact absurd (List.append_eq_nil_iff.1 hnil.symm).1 hb'

/-- A text without blanks is in both texts. -/
theorem of_append (h : Reblanked v (w ++ w')) (hw : ∀ c ∈ w, Text.isBlank c = false) :
    ∃ u, v = w ++ u ∧ Reblanked u w' := by
  induction w generalizing v with
  | nil => exact ⟨v, rfl, h⟩
  | cons c w ih =>
    obtain ⟨hc, hw⟩ := List.forall_mem_cons.1 hw
    obtain ⟨v, rfl, hrest⟩ := h.of_cons hc
    obtain ⟨u, rfl, hu⟩ := ih hrest hw
    exact ⟨u, rfl, hu⟩

theorem dropWhile (h : Reblanked v v') : Reblanked (v.dropWhile Text.isBlank) (v'.dropWhile Text.isBlank) := by
  induction h with
  | nil => exact .nil
  | char hc h _ =>
    rw [List.dropWhile_cons_of_neg (by simp [hc]), List.dropWhile_cons_of_neg (by simp [hc])]
    exact .char hc h
  | blanks _ _ hall hall' _ ih =>
    rwa [List.dropWhile_append_of_pos hall, List.dropWhile_append_of_pos hall']

theorem head_isBlank (h : Reblanked v v') : v.head?.any Text.isBlank = v'.head?.any Text.isBlank := by
  cases h with
  | nil => rfl
  | char => rfl
  | @blanks b b' _ _ hb hb' hall hall' _ =>
    obtain ⟨c, b, rfl⟩ := List.exists_cons_of_ne_nil hb
    obtain ⟨d, b', rfl⟩ := List.exists_cons_of_ne_nil hb'
    exact (hall c List.mem_cons_self).trans (hall' d List.mem_cons_self).symm

/-- Whether an opening parenthesis follows. -/
theorem called (h : Reblanked v v') (hcalled : (v'.dropWhile Text.isBlank).head? = some '(') :
    (v.dropWhile Text.isBlank).head? = some '(' := by
  obtain ⟨rest, hrest⟩ := List.head?_eq_some_iff.1 hcalled
  have hdrop := h.dropWhile
  rw [hrest] at hdrop
  obtain ⟨w, hw, -⟩ := hdrop.of_cons (by decide)
  rw [hw]
  rfl

/-- No blank stands inside the end of a comment. -/
theorem closes (h : Reblanked v v') (hcloses : Closes v') : Closes v := by
  obtain ⟨a, rest, hv'⟩ := hcloses
  induction h generalizing a with
  | nil =>
    cases a <;> cases hv'
  | @char c v v' hc h ih =>
    cases a with
    | nil =>
      obtain ⟨rfl, rfl⟩ := List.cons.inj hv'
      obtain ⟨w, rfl, -⟩ := h.of_cons (by decide)
      exact ⟨[], w, rfl⟩
    | cons d a =>
      obtain ⟨a', b', rfl⟩ := ih a (List.cons.inj hv').2
      exact ⟨c :: a', b', rfl⟩
  | @blanks b b' v v' _ _ _ hall' _ ih =>
    have hbehind : ∃ a', v' = a' ++ '*' :: '/' :: rest := by
      rcases List.append_eq_append_iff.1 hv' with ⟨a', -, hrest⟩ | ⟨y, rfl, hrest⟩
      · exact ⟨a', hrest⟩
      · cases y with
        | nil => exact ⟨[], hrest.symm⟩
        | cons d y =>
          obtain ⟨rfl, -⟩ := List.cons.inj hrest
          have hstar := hall' _ (List.mem_append_right _ List.mem_cons_self)
          exact absurd hstar (by decide)
    obtain ⟨a', ha'⟩ := hbehind
    obtain ⟨a'', b'', rfl⟩ := ih a' ha'
    exact ⟨b ++ a'', b'', by rw [List.append_assoc]⟩

/-- The words of a name follow in both texts. -/
theorem afterWords {more : List String} (hmore : ∀ word ∈ more, ∀ c ∈ word.toList, Text.isBlank c = false)
    (h : Reblanked v v') (hafter : afterWords? more v' = some w') :
    ∃ w, afterWords? more v = some w ∧ Reblanked w w' := by
  induction more generalizing v v' with
  | nil =>
    cases hafter
    exact ⟨v, rfl, h⟩
  | cons word more ih =>
    obtain ⟨hword, hmore⟩ := List.forall_mem_cons.1 hmore
    rw [afterWords?] at hafter
    split at hafter
    · rename_i hblank
      obtain ⟨behind, hbehind, hafter⟩ := Option.bind_eq_some_iff.1 hafter
      have hdrop := h.dropWhile
      rw [← List.isPrefixOf?_eq_some_iff_append_eq.1 hbehind] at hdrop
      obtain ⟨u, hu, hreblanked⟩ := hdrop.of_append hword
      obtain ⟨w, hw, hww'⟩ := ih hmore hreblanked hafter
      refine ⟨w, ?_, hww'⟩
      rw [afterWords?, if_pos (h.head_isBlank.trans hblank), hu, List.isPrefixOf?_eq_some_iff_append_eq.2 rfl]
      exact hw
    · cases hafter

end Reblanked

namespace Lexer

variable {v v' w w' cs cs' u u' x x' : List Char} {a : Terminal × String × List String}

theorem phrases_solid : ∀ x ∈ phrases, (∀ c ∈ x.2.1.toList, Text.isBlank c = false) ∧
    ∀ word ∈ x.2.2, ∀ c ∈ word.toList, Text.isBlank c = false := by
  have htable : ∀ x ∈ phrases, (x.2.1.toList.all fun c => !Text.isBlank c) = true ∧
      ∀ word ∈ x.2.2, (word.toList.all fun c => !Text.isBlank c) = true := by decide
  intro x hx
  obtain ⟨hfirst, hmore⟩ := htable x hx
  exact ⟨by simpa using hfirst, fun word hword => by simpa using hmore word hword⟩

/-- **A builtin name of several words fits whatever white space stands between its words.** -/
theorem phrase_reblanked (ha : a ∈ phrases) (h : Reblanked cs (u' ++ x')) (hfits : (phraseOf a).Fits u' x') :
    ∃ u x, cs = u ++ x ∧ (phraseOf a).Fits u x ∧ Reblanked x x' := by
  obtain ⟨hfirst, hmore⟩ := phrases_solid a ha
  obtain ⟨v', rfl, hv'⟩ := mem_spelled_mul.1 hfits.text
  rw [List.append_assoc] at h
  obtain ⟨w, rfl, hw⟩ := h.of_append hfirst
  obtain ⟨x, hx, hxx'⟩ := hw.afterWords hmore
    ((afterWords?_eq_some (phrases_firm a ha)).2 ⟨v', rfl, hv'⟩)
  obtain ⟨v, rfl, hv⟩ := (afterWords?_eq_some (phrases_firm a ha)).1 hx
  refine ⟨a.2.1.toList ++ v, x, by rw [List.append_assoc], ⟨mem_spelled_mul.2 ⟨v, rfl, hv⟩, fun _ => ?_⟩, hxx'⟩
  exact called_iff.1 (hxx'.called (called_iff.2 (hfits.ahead rfl)))

theorem phrases_miss_reblanked (h : Reblanked cs cs') (hmiss : ∀ x ∈ phrases, (phraseOf x).Misses cs) :
    ∀ x ∈ phrases, (phraseOf x).Misses cs' := by
  rintro a ha u' x' rfl hfits
  obtain ⟨u, x, hcs, hfits, -⟩ := phrase_reblanked ha h hfits
  exact hmiss a ha u x hcs hfits

/-- A token or comment before a text with other white space. -/
theorem Scans.reblanked {unary : Bool} {t : Terminal} {c : Char} {f g g' : List Char}
    (h : Scans unary v (f ++ g) t) (hf : f ≠ []) (hblank : t ≠ .blank) (hc : Text.isBlank c = true)
    (hg : Reblanked g (c :: g')) : Scans unary v (f ++ c :: g') t := by
  cases ht : isPhrase t with
  | true =>
    obtain ⟨a, ha, rfl, hfits⟩ := phrase_of_scans h ht
    refine scans_phrase ha ⟨hfits.text, fun _ => called_iff.1 ?_⟩
    exact ((Reblanked.refl f).append hg.symm).called (called_iff.2 (hfits.ahead rfl))
  | false =>
    by_cases hblock : t = .blockComment
    · subst hblock
      exact h.block _
    · refine h.respaced ht hblank hblock (fun _ => hf) hc (fun _ _ => hg.closes) ?_
      exact phrases_miss_reblanked ((Reblanked.refl v).append ((Reblanked.refl f).append hg)) (h.phrases_miss ht)

end Lexer

/-- **What stands in front of a text keeps its tokens if the white space inside the text is another one.** -/
theorem Leading.reblanked {f g g' : List Char} (h : Leading unary (f ++ g) position cs ls) (hf : f ≠ [])
    (hc : Text.isBlank c = true) (hg : Reblanked g (c :: g')) :
    Leading unary (f ++ c :: g') position cs ls := by
  have hscans : ∀ {v cs t}, t ≠ .blank → Scans unary v (cs ++ (f ++ g)) t →
      Scans unary v (cs ++ (f ++ c :: g')) t := by
    intro v cs t hblank h
    rw [← List.append_assoc] at h ⊢
    exact h.reblanked (List.append_ne_nil_of_right_ne_nil _ hf) hblank hc hg
  induction h with
  | done => exact .done
  | blank hspace _ ih => exact .blank hspace ih
  | comment ht hscan _ ih =>
    refine .comment ht (hscans ?_ hscan) ih
    rintro rfl
    rcases ht with ht | ht <;> cases ht
  | token ht hscan _ ih =>
    refine .token ht (hscans ?_ hscan) ih
    rintro rfl
    cases ht

/-! ## A blank in place of a comment -/

/-- The same text has the same tokens at each place. -/
theorem Leading.placed (h : Leading unary rest position cs ls) (place : ℕ) :
    ∃ ls', Leading unary rest place cs ls' := by
  induction h generalizing place with
  | done => exact ⟨[], .done⟩
  | blank hc _ ih =>
    obtain ⟨ls', h⟩ := ih (place + 1)
    exact ⟨ls', .blank hc h⟩
  | @comment _ v _ _ _ ht hscan _ ih =>
    obtain ⟨ls', h⟩ := ih (place + v.length)
    exact ⟨ls', .comment ht hscan h⟩
  | @token _ v _ _ _ ht hscan _ ih =>
    obtain ⟨ls', h⟩ := ih (place + v.length)
    exact ⟨_, .token ht hscan h⟩

/-- A builtin name of several words that is read in front of the place between two texts reaches over it, with
the blanks between the name and its opening parenthesis. -/
def Straddles (unary : Bool) (before rest : List Char) : Prop :=
  ∃ a u blanks more ls, before ++ rest = a ++ (u ++ (blanks ++ '(' :: more)) ∧
    Leading unary (u ++ (blanks ++ '(' :: more)) 0 a ls ∧ (∃ x ∈ phrases, u ∈ (phraseOf x).text) ∧
    (∀ c ∈ blanks, Text.isBlank c = true) ∧ a.length < before.length ∧
    before.length < (a ++ (u ++ blanks)).length

section Straddles

variable {v r' : List Char} {t : Terminal}

/-- What reaches over a place behind a token reaches over it behind more tokens. -/
theorem Straddles.behind (h : Straddles unary cs rest)
    (hleading : ∀ {a rest' ls}, a ++ rest' = cs ++ rest → Leading unary rest' (0 + v.length) a ls →
      ∃ ls', Leading unary rest' 0 (v ++ a) ls') : Straddles unary (v ++ cs) rest := by
  obtain ⟨a, u, blanks, more, ls, hsplit, ha, hu, hblanks, hstart, hstop⟩ := h
  obtain ⟨ls', ha⟩ := ha.placed (0 + v.length)
  obtain ⟨ls'', ha⟩ := hleading hsplit.symm ha
  refine ⟨v ++ a, u, blanks, more, ls'', ?_, ha, hu, hblanks, ?_, ?_⟩
  · rw [List.append_assoc, hsplit, List.append_assoc]
  · simpa using hstart
  · rw [List.append_assoc, List.length_append, List.length_append]
    exact Nat.add_lt_add_left hstop _

/-- No builtin name of several words comes about in front of a token if none reaches over the place. -/
theorem phrases_miss_respaced (hv : v ≠ []) (hc : isSpace c = true)
    (hmiss : ∀ x ∈ phrases, (phraseOf x).Misses (v ++ (cs ++ rest)))
    (hno : ¬ Straddles unary (v ++ cs) (c :: r')) :
    ∀ x ∈ phrases, (phraseOf x).Misses (v ++ (cs ++ c :: r')) := by
  intro x hx u w hsplit hfits
  obtain ⟨blanks, more, rfl, hblanks⟩ := hfits.ahead rfl
  have hover : (u ++ blanks).length ≤ (v ++ cs).length := by
    by_contra hlong
    refine hno ⟨[], u, blanks, more, [], ?_, .done, ⟨x, hx, hfits.text⟩, hblanks, ?_, ?_⟩
    · rw [List.append_assoc, hsplit, List.nil_append]
    · exact List.length_pos_iff.2 (List.append_ne_nil_of_left_ne_nil hv cs)
    · rw [List.nil_append]
      omega
  -- the parenthesis stands before the place, so the name fits before the other text, too
  rw [← List.append_assoc, ← List.append_assoc] at hsplit
  rcases List.append_eq_append_iff.1 hsplit with ⟨y, hy, hrest⟩ | ⟨y, hy, hrest⟩
  · have hnil : y = [] := by
      rw [hy, List.length_append] at hover
      exact List.length_eq_zero_iff.1 (by omega)
    rw [hnil] at hrest
    obtain rfl := (List.cons.inj hrest).1
    exact absurd hc (by decide)
  · cases y with
    | nil =>
      obtain rfl := (List.cons.inj hrest).1
      exact absurd hc (by decide)
    | cons d y =>
      obtain ⟨rfl, -⟩ := List.cons.inj hrest
      refine hmiss x hx u (blanks ++ '(' :: (y ++ rest)) ?_ ⟨hfits.text, fun _ => ⟨blanks, _, rfl, hblanks⟩⟩
      rw [← List.append_assoc, hy]
      simp

/-- An opening parenthesis that follows before a slash follows before it. -/
theorem ahead_respaced {r : List Char} (h : ((cs ++ '/' :: r).dropWhile Text.isBlank).head? = some '(') :
    ((cs ++ rest).dropWhile Text.isBlank).head? = some '(' := by
  obtain ⟨blanks, more, hsplit, hblanks⟩ := called_iff.1 h
  refine called_iff.2 ?_
  rcases List.append_eq_append_iff.1 hsplit with ⟨y, hy, hrest⟩ | ⟨y, rfl, hrest⟩
  · cases y with
    | nil => cases hrest
    | cons d y =>
      obtain rfl := (List.cons.inj hrest).1
      exact absurd (hblanks '/' (by rw [hy]; simp)) (by decide)
  · cases y with
    | nil => cases hrest
    | cons d y =>
      obtain ⟨rfl, -⟩ := List.cons.inj hrest
      exact ⟨blanks, y ++ rest, by simp, hblanks⟩

/-- **What stands in front of a comment has the same tokens in front of a blank**, if no builtin name of several
words reaches over the place. -/
theorem Leading.respaced {r : List Char} (h : Leading unary ('/' :: r) position cs ls) (hc : isSpace c = true)
    (hclose : Closes (c :: r') → Closes ('/' :: r)) (hno : ¬ Straddles unary cs (c :: r')) :
    Leading unary (c :: r') position cs ls := by
  induction h with
  | done => exact .done
  | @blank _ d cs _ hd _ ih =>
    refine .blank hd (ih fun hstraddles => hno ?_)
    exact hstraddles.behind (v := [d]) fun _ h => ⟨_, .blank hd h⟩
  | @comment position v cs t ls ht hscan _ ih =>
    have hscan' : Scans unary v (cs ++ c :: r') t := by
      rcases ht with rfl | rfl
      · exact hscan.block _
      · have hends := hscan.line_ends
        cases cs with
        | nil => exact absurd (hends '/' rfl) (by decide)
        | cons d cs => exact hscan.line hends
    refine .comment ht hscan' (ih fun hstraddles => hno ?_)
    exact hstraddles.behind fun hsplit h => ⟨_, .comment ht (hsplit ▸ hscan') h⟩
  | @token position v cs t ls ht hscan _ ih =>
    have hscan' : Scans unary v (cs ++ c :: r') t := by
      cases hphrase : isPhrase t with
      | true =>
        obtain ⟨a, ha, rfl, hfits⟩ := phrase_of_scans hscan hphrase
        exact scans_phrase ha ⟨hfits.text, fun _ =>
          called_iff.1 (ahead_respaced (called_iff.2 (hfits.ahead rfl)))⟩
      | false =>
        have hkinds : t ≠ .blank ∧ t ≠ .blockComment ∧ t ≠ .lineComment := by
          refine ⟨?_, ?_, ?_⟩ <;> rintro rfl <;> cases ht
        exact hscan.respaced hphrase hkinds.1 hkinds.2.1 (fun h => absurd h hkinds.2.2) (isBlank_of_isSpace hc)
          (fun _ _ => hclose) (phrases_miss_respaced hscan.ne_nil hc (hscan.phrases_miss hphrase) hno)
    refine .token ht hscan' (ih fun hstraddles => hno ?_)
    exact hstraddles.behind fun hsplit h => ⟨_, .token ht (hsplit ▸ hscan') h⟩

end Straddles

end Criterion

import Criterion.Proofs.Literals
import Criterion.Proofs.Locality

/-!
# Sources between parentheses

A source of tests can be asked for behind `in`: a name, the word, and the source between parentheses. Its
tokens stand there as they are, moved, unless a line comment at its end swallows the closing parenthesis.

* `Lexer.Scans.closed`: what stands at the head of a text stands there if a parenthesis is put to its end.
* `Tokens.closed`: so its tokens are followed by the parenthesis, or a comment swallows it.
* `membership`, `tokens_membership`: **the tokens of a name, the word `in` and a source in parentheses.**
-/

namespace Criterion

open Computability

namespace Lexer

variable {p : Pattern} {ps : List Pattern} {unary : Bool} {v w cs : List Char} {t : Terminal}

/-! ## A parenthesis at the end -/

/-- No text of the pattern ends with a closing parenthesis, the parenthesis itself apart. -/
def Pattern.Open (p : Pattern) : Prop := ∀ u, u ++ [')'] ∈ p.text → u = []

theorem Pattern.open_of_chars {p : Pattern} (h : ∀ v ∈ p.text, ')' ∉ v) : p.Open :=
  fun u hu => absurd (List.mem_append_right u List.mem_cons_self) (h _ hu)

theorem Pattern.open_of_last {p : Pattern} {c : Char} (hc : c ≠ ')') (h : ∀ v ∈ p.text, v.getLast? = some c) :
    p.Open := by
  intro u hu
  have hlast := h _ hu
  rw [List.getLast?_concat] at hlast
  exact absurd (Option.some.inj hlast).symm hc

theorem open_run {start part : Char → Bool} (hstart : start ')' = false) (hpart : part ')' = false)
    (kind : Terminal) : (plainPattern kind (charOf start * (charOf part)∗)).Open := by
  refine Pattern.open_of_chars fun v hv hmem => ?_
  obtain ⟨c, rest, rfl, hc, hrest⟩ := mem_charOf_mul.1 hv
  rcases List.mem_cons.1 hmem with rfl | hmem
  · rw [hstart] at hc
    cases hc
  · have htrue := mem_charOf_kstar.1 hrest _ hmem
    rw [hpart] at htrue
    cases htrue

theorem notMem_spaced {c : Char} (hc : Text.isBlank c = false) {more : List String}
    (hmore : ∀ word ∈ more, c ∉ word.toList) (hv : v ∈ spaced more) : c ∉ v := by
  induction more generalizing v with
  | nil =>
    rw [(Language.mem_one v).1 hv]
    exact List.not_mem_nil
  | cons word more ih =>
    obtain ⟨hword, hmore⟩ := List.forall_mem_cons.1 hmore
    obtain ⟨_, ⟨blanks, hblanks, _, rfl, rfl⟩, rest, hrest, rfl⟩ := hv
    have hblanks : c ∉ blanks := fun hmem => by
      have hblank := (mem_charsOf.1 hblanks).2 _ hmem
      rw [hc] at hblank
      cases hblank
    simp only [List.mem_append, not_or]
    exact ⟨⟨hblanks, hword⟩, ih hmore hrest⟩

/-- The line comment apart, no terminal has a text that ends with a parenthesis. -/
theorem open_of_mem (hp : p ∈ patterns) (hline : p.kind ≠ .lineComment) : p.Open := by
  have hphrases : ∀ x ∈ phrases, ')' ∉ x.2.1.toList ∧ ∀ word ∈ x.2.2, ')' ∉ word.toList := by decide
  have hsymbols : ∀ x ∈ symbols, x.2.toList.getLast? = some ')' → x.2.toList = [')'] := by decide
  simp only [patterns, wordPatterns, List.mem_append, List.mem_map, List.mem_cons, List.not_mem_nil,
    or_false] at hp
  rcases hp with ((⟨x, hx, rfl⟩ | rfl | rfl | rfl | rfl) | rfl | rfl) | ⟨x, hx, rfl⟩
  · refine Pattern.open_of_chars fun v hv => ?_
    obtain ⟨rest, rfl, hrest⟩ := mem_spelled_mul.1 hv
    obtain ⟨hfirst, hmore⟩ := hphrases x hx
    exact List.not_mem_append hfirst (notMem_spaced (by decide) hmore hrest)
  · exact open_run (by decide) (by decide) .identifier
  · refine Pattern.open_of_chars fun v hv hmem => ?_
    have hdigit : ∀ c, Text.isDigit c = true → c ≠ ')' := by
      rintro c hc rfl
      revert hc
      decide
    obtain ⟨whole, fraction, hwhole, hfraction, ⟨rfl, -⟩ | ⟨rfl, -⟩⟩ := mem_number.1 hv
    · exact hdigit _ (hwhole _ hmem) rfl
    · rcases List.mem_append.1 hmem with hmem | hmem
      · exact hdigit _ (hwhole _ hmem) rfl
      · rcases List.mem_cons.1 hmem with hpoint | hmem
        · revert hpoint
          decide
        · exact hdigit _ (hfraction _ hmem) rfl
  · refine Pattern.open_of_last (c := '"') (by decide) fun v hv => ?_
    obtain ⟨u, -, _, rfl, rfl⟩ := hv
    exact List.getLast?_concat
  · exact open_run (by decide) (by decide) .blank
  · refine Pattern.open_of_last (c := '/') (by decide) fun v hv => ?_
    obtain ⟨u, rfl⟩ := mem_blockComment.1 hv
    have hsplit : '/' :: '*' :: (u ++ ['*', '/']) = '/' :: '*' :: (u ++ ['*']) ++ ['/'] := by simp
    rw [hsplit, List.getLast?_concat]
  · exact absurd rfl hline
  · intro u hu
    have htext : u ++ [')'] = x.2.toList := hu
    have hparen := hsymbols x hx (htext ▸ List.getLast?_concat)
    rw [← htext] at hparen
    simpa using hparen

theorem Pattern.ahead_closed : p.Ahead (w ++ [')']) ↔ p.Ahead w := by
  refine imp_congr Iff.rfl ⟨?_, ?_⟩
  · rintro ⟨blanks, more, hw, hblanks⟩
    cases more using List.reverseRecOn with
    | nil =>
      obtain ⟨-, hparen⟩ := List.append_inj' hw rfl
      cases hparen
    | append_singleton more c =>
      have hsplit : w ++ [')'] = (blanks ++ '(' :: more) ++ [c] := by
        rw [hw, List.append_assoc, List.cons_append]
      exact ⟨blanks, more, (List.append_inj' hsplit rfl).1, hblanks⟩
  · rintro ⟨blanks, more, rfl, hblanks⟩
    exact ⟨blanks, more ++ [')'], by simp, hblanks⟩

/-- What fits in a text with a parenthesis at its end fits in the text. -/
theorem Pattern.Fits.of_closed (hp : p.Open) (hcs : v ++ w = cs ++ [')']) (hne : cs ≠ []) (h : p.Fits v w) :
    ∃ u, cs = v ++ u ∧ w = u ++ [')'] ∧ p.Fits v u := by
  cases w using List.reverseRecOn with
  | nil =>
    rw [List.append_nil] at hcs
    exact absurd (hp cs (hcs ▸ h.text)) hne
  | append_singleton u c =>
    rw [← List.append_assoc] at hcs
    obtain ⟨hsplit, hc⟩ := List.append_inj' hcs rfl
    cases hc
    exact ⟨u, hsplit.symm, rfl, h.text, Pattern.ahead_closed.1 h.ahead⟩

theorem Pattern.Misses.closed (hp : p.Open) (hne : cs ≠ []) (h : p.Misses cs) : p.Misses (cs ++ [')']) := by
  intro v w hcs hfits
  obtain ⟨u, hu, -, hfits⟩ := hfits.of_closed hp hcs.symm hne
  exact h v u hu hfits

theorem Pattern.Takes.closed (hp : p.Open) (hne : v ++ w ≠ []) (h : p.Takes v w) :
    p.Takes v (w ++ [')']) := by
  refine ⟨⟨h.fits.text, Pattern.ahead_closed.2 h.fits.ahead⟩, fun v' w' hcs hfits => ?_⟩
  rw [← List.append_assoc] at hcs
  obtain ⟨u, hu, -, hfits⟩ := hfits.of_closed hp hcs hne
  exact h.best v' u hu.symm hfits

/-- No line comment begins where none began. -/
theorem line_misses_closed (hne : cs ≠ []) (h : linePattern.Misses cs) : linePattern.Misses (cs ++ [')']) := by
  intro v w hcs hfits
  obtain ⟨u, rfl, -⟩ := mem_lineComment.1 hfits.text
  obtain ⟨rest, hrest⟩ : ∃ rest, cs = '/' :: '/' :: rest := by
    match cs, hne with
    | [c], _ => cases hcs
    | c :: d :: rest, _ =>
      simp only [List.cons_append, List.cons.injEq] at hcs
      obtain ⟨rfl, rfl, -⟩ := hcs
      exact ⟨rest, rfl⟩
  have htakes := (takes_line rest).fits
  refine h _ _ ?_ htakes
  rw [hrest, List.cons_append, List.cons_append, List.takeWhile_append_dropWhile]

/-- A line comment that ends before the text does not reach the parenthesis. -/
theorem line_takes_closed (hw : w ≠ []) (h : linePattern.Takes v w) : linePattern.Takes v (w ++ [')']) := by
  obtain ⟨u, rfl, hu⟩ := mem_lineComment.1 h.fits.text
  obtain ⟨c, w, rfl⟩ := List.exists_cons_of_ne_nil hw
  have hall : ∀ c ∈ u, (c != '\n') = true := fun c hc => by simpa using hu c hc
  have htakes := takes_line (u ++ c :: w)
  obtain ⟨hsame, -⟩ := h.unique htakes (by simp)
  -- the comment is the longest one, so a line break follows it
  have hbreak : (c != '\n') = false := by
    by_contra hc
    rw [List.takeWhile_append_of_pos hall] at hsame
    rw [List.takeWhile_cons_of_pos (p := (· != '\n')) (Bool.eq_true_of_not_eq_false hc)] at hsame
    simp at hsame
  have hlonger := takes_line (u ++ c :: (w ++ [')']))
  rwa [takeWhile_append_eq hall hbreak, List.dropWhile_append_of_pos hall,
    List.dropWhile_cons_of_neg (by simp [hbreak])] at hlonger

theorem eq_line_of_kind (hp : p ∈ patterns) (hkind : p.kind = .lineComment) : p = linePattern := by
  have hphrases : ∀ x ∈ phrases, x.1 ≠ .lineComment := by decide
  have hsymbols : ∀ x ∈ symbols, x.1 ≠ .lineComment := by decide
  simp only [patterns, wordPatterns, List.mem_append, List.mem_map, List.mem_cons, List.not_mem_nil,
    or_false] at hp
  rcases hp with ((⟨x, hx, rfl⟩ | rfl | rfl | rfl | rfl) | rfl | rfl) | ⟨x, hx, rfl⟩
  · exact absurd hkind (hphrases x hx)
  · cases hkind
  · cases hkind
  · cases hkind
  · cases hkind
  · cases hkind
  · rfl
  · exact absurd hkind (hsymbols x hx)

theorem misses_closed (hp : p ∈ patterns) (hne : cs ≠ []) (h : p.Misses cs) : p.Misses (cs ++ [')']) := by
  by_cases hline : p = linePattern
  · rw [hline] at h ⊢
    exact line_misses_closed hne h
  · exact h.closed (open_of_mem hp fun hkind => hline (eq_line_of_kind hp hkind)) hne

theorem Wins.closed (hps : ∀ q ∈ ps, q ∈ patterns) (h : Wins ps p v w) (hne : v ++ w ≠ [])
    (hline : p = linePattern → w ≠ []) : Wins ps p v (w ++ [')']) := by
  induction h with
  | @here p ps v w h =>
    by_cases hp : p = linePattern
    · subst hp
      exact .here (line_takes_closed (hline rfl) h)
    · have hmem := hps p List.mem_cons_self
      exact .here (h.closed (open_of_mem hmem fun hkind => hp (eq_line_of_kind hmem hkind)) hne)
  | @later p q ps v w hmiss _ ih =>
    refine .later ?_ (ih (fun r hr => hps r (List.mem_cons_of_mem _ hr)) hne hline)
    rw [← List.append_assoc]
    exact misses_closed (hps q List.mem_cons_self) hne hmiss

/-- **What stands at the head of a text stands there if a parenthesis is put to its end**, unless it is a
line comment that reaches the end. -/
theorem Scans.closed (h : Scans unary v w t) (hline : t = .lineComment → w ≠ []) :
    Scans unary v (w ++ [')']) t := by
  have hne : v ++ w ≠ [] := List.append_ne_nil_of_left_ne_nil h.ne_nil w
  obtain ⟨p, hp, ht⟩ := h
  refine ⟨p, hp.closed (fun _ hq => hq) hne ?_, ht⟩
  rintro rfl
  refine hline ?_
  cases ht with
  | reserved hkind => cases hkind
  | plain => rfl

theorem Wins.comment_closed (hps : ∀ q ∈ ps, q ∈ patterns) (hne : v ≠ [])
    (h : Wins ps linePattern v []) : Wins ps linePattern (v ++ [')']) [] := by
  generalize hp : linePattern = p at h
  generalize hw : ([] : List Char) = w at h
  induction h with
  | @here p ps v w h =>
    subst hp hw
    obtain ⟨u, rfl, hu⟩ := mem_lineComment.1 h.fits.text
    have hall : ∀ c ∈ u ++ [')'], (c != '\n') = true := by
      intro c hc
      rcases List.mem_append.1 hc with hc | hc
      · simpa using hu c hc
      · rw [List.mem_singleton.1 hc]
        decide
    have htakes := takes_line (u ++ [')'])
    rw [List.takeWhile_eq_self_iff.2 hall, List.dropWhile_eq_nil_iff.2 hall] at htakes
    exact .here htakes
  | @later p q ps v w hmiss _ ih =>
    subst hw
    refine .later ?_ (ih (fun r hr => hps r (List.mem_cons_of_mem _ hr)) hne hp rfl)
    rw [List.append_nil] at hmiss ⊢
    exact misses_closed (hps q List.mem_cons_self) hne hmiss

/-- A line comment that reaches the end takes the parenthesis with it. -/
theorem scans_comment_closed (h : Scans unary v [] .lineComment) :
    Scans unary (v ++ [')']) [] .lineComment := by
  have hne := h.ne_nil
  obtain ⟨p, hp, ht⟩ := h
  generalize hkind : Terminal.lineComment = t at ht
  cases ht with
  | reserved => cases hkind
  | plain =>
    obtain rfl := eq_line_of_kind hp.mem hkind.symm
    exact ⟨linePattern, hp.comment_closed (fun _ hq => hq) hne, .plain fun h => by cases h⟩

/-! ## Names -/

/-- A text of letters, digits, underscores and dollar signs that begins with no digit. -/
structure IsWord (word : String) : Prop where
  starts : word.toList.head?.any isWordStart = true
  parts : ∀ c ∈ word.toList, isWordPart c = true

/-- A text that is a name: a word that is not reserved. -/
structure IsName (name : String) : Prop where
  starts : name.toList.head?.any isWordStart = true
  parts : ∀ c ∈ name.toList, isWordPart c = true
  free : wordKind false name.toList = .identifier

/-- No character of a word is a blank. -/
theorem isBlank_of_wordPart {c : Char} (hc : isWordPart c = true) : Text.isBlank c = false := by
  have hrange : c.toNat = 36 ∨ 48 ≤ c.toNat ∧ c.toNat ≤ 122 := by
    have hupper : c.isUpper = true → 65 ≤ c.toNat ∧ c.toNat ≤ 90 := fun h =>
      (of_decide_eq_true h : 'A'.val ≤ c.val ∧ c.val ≤ 'Z'.val)
    have hlower : c.isLower = true → 97 ≤ c.toNat ∧ c.toNat ≤ 122 := fun h => by
      obtain ⟨hlow, hhigh⟩ := Bool.and_eq_true_iff.1 h
      exact ⟨of_decide_eq_true hlow, of_decide_eq_true hhigh⟩
    have hdigit : c.isDigit = true → 48 ≤ c.toNat ∧ c.toNat ≤ 57 := fun h => by
      obtain ⟨hlow, hhigh⟩ := Bool.and_eq_true_iff.1 h
      exact ⟨of_decide_eq_true hlow, of_decide_eq_true hhigh⟩
    unfold isWordPart isWordStart Char.isAlpha at hc
    simp only [Bool.or_eq_true, beq_iff_eq] at hc
    rcases hc with (((hc | hc) | rfl) | rfl) | hc
    · have hbounds := hupper hc
      omega
    · have hbounds := hlower hc
      omega
    · decide
    · decide
    · have hbounds := hdigit hc
      omega
  unfold Text.isBlank
  simp only [Bool.or_eq_false_iff, Bool.and_eq_false_iff, decide_eq_false_iff_not, beq_eq_false_iff_ne]
  omega

theorem isWordPart_of_blank {c : Char} (hc : Text.isBlank c = true) : isWordPart c = false := by
  refine Bool.eq_false_of_not_eq_true fun hpart => ?_
  rw [isBlank_of_wordPart hpart] at hc
  cases hc

/-- What ends a name: no character of a word comes next, and no further word of a builtin name. -/
structure EndsName (rest : List Char) : Prop where
  apart : ∀ c ∈ rest.head?, isWordPart c = false
  missed : ∀ x ∈ phrases, afterWords? x.2.2 rest = none

/-- A builtin name of several words goes on behind a blank. -/
theorem endsName_of_head {rest : List Char}
    (h : ∀ c ∈ rest.head?, isWordPart c = false ∧ Text.isBlank c = false) : EndsName rest := by
  have hmore : ∀ x ∈ phrases, x.2.2 ≠ [] := by decide
  refine ⟨fun c hc => (h c hc).1, fun x hx => ?_⟩
  obtain ⟨word, words, hwords⟩ := List.exists_cons_of_ne_nil (hmore x hx)
  have hblank : ¬ rest.head?.any Text.isBlank = true := by
    cases hhead : rest.head? with
    | none => simp
    | some c => simp [(h c hhead).2]
  rw [hwords, afterWords?, if_neg hblank]

/-- No word behind the first one of a builtin name begins with an `i`. -/
theorem endsName_before_i (rest : List Char) : EndsName (' ' :: 'i' :: rest) := by
  have hmore : ∀ x ∈ phrases,
      x.2.2.head?.any (fun word => word.toList.head?.any (· != 'i')) = true := by decide
  refine ⟨fun c hc => by cases hc; decide, fun x hx => ?_⟩
  have hhead := hmore x hx
  cases hwords : x.2.2 with
  | nil =>
    rw [hwords] at hhead
    cases hhead
  | cons word words =>
    rw [hwords, List.head?_cons, Option.any_some] at hhead
    have hdrop : (' ' :: 'i' :: rest).dropWhile Text.isBlank = 'i' :: rest := by
      rw [List.dropWhile_cons_of_pos (by decide), List.dropWhile_cons_of_neg (by decide)]
    rw [afterWords?, if_pos (by rfl), hdrop]
    cases hword : word.toList with
    | nil =>
      rw [hword] at hhead
      cases hhead
    | cons c letters =>
      rw [hword] at hhead
      have hc : (c == 'i') = false := by simpa using hhead
      rw [List.isPrefixOf?, hc]
      rfl

/-- No builtin name of several words begins with a word where the word ends, unless it is the first one of such a
name and the next ones follow. -/
theorem phrases_missed_behind {word rest : List Char} (hword : ∀ c ∈ word, isWordPart c = true)
    (hapart : ∀ c ∈ rest.head?, isWordPart c = false)
    (hmissed : ∀ x ∈ phrases, x.2.1.toList = word → afterWords? x.2.2 rest = none) :
    (phrases.findSome? fun (t, first, more) =>
      (phrase? first more (word ++ rest)).map fun n => (t, n)) = none := by
  have hfirst : ∀ x ∈ phrases, x.2.1.toList.all isWordPart = true := by decide
  have hmore : ∀ x ∈ phrases, x.2.2 ≠ [] := by decide
  refine List.findSome?_eq_none_iff.2 fun ⟨t, first, more⟩ hx => ?_
  have hwords : (first.toList.isPrefixOf? (word ++ rest)).bind (afterWords? more) = none := by
    cases hprefix : first.toList.isPrefixOf? (word ++ rest) with
    | none => rfl
    | some behind =>
      show afterWords? more behind = none
      rcases List.append_eq_append_iff.1 (List.isPrefixOf?_eq_some_iff_append_eq.1 hprefix) with
        ⟨u, rfl, rfl⟩ | ⟨u, hu, rfl⟩
      · cases u with
        | nil => exact hmissed _ hx (List.append_nil _).symm
        | cons c u =>
          -- the word goes on where the first word of the name ends, with no blank
          obtain ⟨next, words, rfl⟩ := List.exists_cons_of_ne_nil (hmore _ hx)
          have hc := isBlank_of_wordPart (hword c (by simp))
          rw [afterWords?, List.cons_append, List.head?_cons, Option.any_some, hc, if_neg Bool.false_ne_true]
      · cases u with
        | nil => exact hmissed _ hx (hu.trans (List.append_nil _))
        | cons c u =>
          have hc := hapart c rfl
          rw [List.all_eq_true.1 (hfirst _ hx) c (by simp [hu])] at hc
          cases hc
  show (phrase? first more _).map _ = none
  unfold phrase?
  rw [hwords]
  rfl

/-- **A word is one token** where it ends, unless a builtin name of several words begins with it. -/
theorem scans_word {word rest : List Char} (hstart : word.head?.any isWordStart = true)
    (hword : ∀ c ∈ word, isWordPart c = true) (hapart : ∀ c ∈ rest.head?, isWordPart c = false)
    (hmissed : ∀ x ∈ phrases, x.2.1.toList = word → afterWords? x.2.2 rest = none) :
    Scans unary word rest (wordKind unary word) := by
  have htake : (word ++ rest).takeWhile isWordPart = word := by
    cases rest with
    | nil => rw [List.append_nil, List.takeWhile_eq_self_iff.2 hword]
    | cons c rest => exact takeWhile_append_eq hword (hapart c rfl) _
  have hhead : (word ++ rest).head?.any isWordStart = true := by
    cases word with
    | nil => cases hstart
    | cons c word => exact hstart
  refine scans_of_scan ?_
  unfold scan?
  rw [word?_eq, phrases_missed_behind hword hapart hmissed, Option.none_or, if_pos hhead, htake]
  rfl

/-- A word is one token where what follows ends it. -/
theorem IsWord.scans_before {word : String} (h : IsWord word) {rest : List Char} (hrest : EndsName rest) :
    Scans false word.toList rest (wordKind false word.toList) :=
  scans_word h.starts h.parts hrest.apart fun x hx _ => hrest.missed x hx

theorem IsName.isWord {name : String} (h : IsName name) : IsWord name := ⟨h.starts, h.parts⟩

/-- **A name is one token** where what follows ends it. -/
theorem IsName.scans_before {name : String} (h : IsName name) {rest : List Char} (hrest : EndsName rest) :
    Scans false name.toList rest .identifier := by
  have hscans := h.isWord.scans_before hrest
  rwa [h.free] at hscans

/-- **A name is one token before a blank and a word that begins with `i`.** -/
theorem IsName.scans {name : String} (h : IsName name) (rest : List Char) :
    Scans false name.toList (' ' :: 'i' :: rest) .identifier := h.scans_before (endsName_before_i rest)

/-- Among tests only the word `not` is another terminal. -/
theorem Scans.of_tests (h : Scans true v w t) (hnot : t ≠ .keyword .notWord) : Scans false v w t := by
  have hreserved : ∀ x, x ∈ reserved true → x.1 = .notWord ∨ x ∈ reserved false := by decide
  obtain ⟨p, hp, ht⟩ := h
  refine ⟨p, hp, ?_⟩
  cases ht with
  | @reserved k hkind hk =>
    rcases hreserved _ hk with hk | hk
    · exact absurd (congrArg Terminal.keyword hk) hnot
    · exact .reserved hkind hk
  | plain hno =>
    refine .plain fun hkind k hk => hno hkind k ?_
    exact List.mem_append_left _ (by simpa [reserved] using hk)

end Lexer

/-! ## Tokens -/

section Tokens

variable {unary : Bool} {position k : ℕ} {cs : List Char} {ls : List Lexeme}

/-- The tokens of a text that starts later. -/
theorem Tokens.moved (h : Tokens unary position cs ls) (k : ℕ) :
    Tokens unary (position + k) cs (ls.map (Lexeme.moved k)) := by
  have hplace : ∀ m n : ℕ, m + k + n = m + n + k := fun m n => Nat.add_right_comm m k n
  induction h with
  | done => exact .done
  | trivia hscan ht _ ih => exact .trivia hscan ht (by rwa [hplace])
  | @token position v w t ls hscan ht _ ih =>
    have htoken : Tokens unary (position + k) (v ++ w) (_ :: ls.map (Lexeme.moved k)) :=
      .token hscan ht (by rwa [hplace])
    rwa [hplace] at htoken

/-- Tests without the word `not` have the same tokens as an expression. -/
theorem Tokens.of_tests (h : Tokens true position cs ls) (hnot : ∀ l ∈ ls, l.kind ≠ .keyword .notWord) :
    Tokens false position cs ls := by
  induction h with
  | done => exact .done
  | @trivia _ _ _ t _ hscan ht _ ih =>
    refine .trivia (hscan.of_tests ?_) ht (ih hnot)
    rintro rfl
    cases ht
  | token hscan ht _ ih =>
    obtain ⟨hl, hls⟩ := List.forall_mem_cons.1 hnot
    exact .token (hscan.of_tests hl) ht (ih hls)

/-- The last that stands in a text is a line comment. -/
inductive EndsInComment (unary : Bool) : List Char → Prop where
  | here {v : List Char} : Lexer.Scans unary v [] .lineComment → EndsInComment unary v
  | behind {v w : List Char} {t : Terminal} : Lexer.Scans unary v w t → EndsInComment unary w →
    EndsInComment unary (v ++ w)

/-- A parenthesis that is put to the end of a text is the last token, or a line comment swallows it. -/
theorem Tokens.closed (h : Tokens unary position cs ls) :
    Tokens unary position (cs ++ [')'])
        (ls ++ [⟨.rightParen, ")", position + cs.length, position + cs.length + 1⟩]) ∨
      EndsInComment unary cs ∧ Tokens unary position (cs ++ [')']) ls := by
  induction h with
  | done =>
    have hscan : Lexer.Scans unary [')'] [] .rightParen := scans_of_scan rfl
    exact .inl (.token hscan rfl .done)
  | @trivia position v w t ls hscan ht hrest ih =>
    by_cases hline : t = .lineComment ∧ w = []
    · obtain ⟨rfl, rfl⟩ := hline
      obtain rfl := tokens_nil_iff.1 hrest
      have hcomment : Tokens unary position ((v ++ [')']) ++ []) [] :=
        .trivia (Lexer.scans_comment_closed hscan) ht .done
      rw [List.append_nil] at hcomment ⊢
      exact .inr ⟨.here hscan, hcomment⟩
    · have hclosed := hscan.closed fun h hw => hline ⟨h, hw⟩
      rw [List.append_assoc, List.length_append, ← Nat.add_assoc]
      exact ih.imp (.trivia hclosed ht) fun h => ⟨.behind hscan h.1, .trivia hclosed ht h.2⟩
  | @token position v w t ls hscan ht hrest ih =>
    have hclosed : Lexer.Scans unary v (w ++ [')']) t := hscan.closed fun h => by
      rw [h] at ht
      cases ht
    rw [List.append_assoc, List.length_append, ← Nat.add_assoc]
    exact ih.imp (.token hclosed ht) fun h => ⟨.behind hscan h.1, .token hclosed ht h.2⟩

/-- The test of the value of a name against a source of tests. -/
def membership (name source : String) : String := name ++ " in (" ++ source ++ ")"

theorem membership_toList (name source : String) : (membership name source).toList =
    name.toList ++ ' ' :: 'i' :: 'n' :: ' ' :: '(' :: (source.toList ++ [')']) := by
  unfold membership
  simp [String.toList_append]

/-- The tokens of a name, the word `in` and an opening parenthesis, before others. -/
def membershipTokens (name : String) (inside : List Lexeme) : List Lexeme :=
  ⟨.identifier, name, 0, name.length⟩ ::
    ⟨.keyword .inWord, "in", name.length + 1, name.length + 3⟩ ::
    ⟨.leftParen, "(", name.length + 4, name.length + 5⟩ :: inside

/-- **The tokens of a name, the word `in` and a source in parentheses**: those of the source, moved, between
parentheses, of which the second one may be lost in a comment. -/
theorem tokens_membership {name source : String} (hname : Lexer.IsName name)
    (h : Tokens true 0 source.toList ls) (hnot : ∀ l ∈ ls, l.kind ≠ .keyword .notWord) :
    ∃ behind : List Lexeme,
      (behind = [] ∨ ∃ closing : Lexeme, closing.kind = .rightParen ∧ behind = [closing]) ∧
        Tokens false 0 (membership name source).toList
          (membershipTokens name (ls.map (Lexeme.moved (name.length + 5)) ++ behind)) := by
  have hinside := (h.of_tests hnot).moved (name.length + 5)
  obtain ⟨behind, hbehind, hclosed⟩ : ∃ behind : List Lexeme,
      (behind = [] ∨ ∃ closing : Lexeme, closing.kind = .rightParen ∧ behind = [closing]) ∧
      Tokens false (name.length + 5) (source.toList ++ [')'])
        (ls.map (Lexeme.moved (name.length + 5)) ++ behind) := by
    rw [Nat.zero_add] at hinside
    rcases hinside.closed with hclosed | ⟨-, hclosed⟩
    · exact ⟨_, .inr ⟨_, rfl, rfl⟩, hclosed⟩
    · exact ⟨[], .inl rfl, by rwa [List.append_nil]⟩
  refine ⟨behind, hbehind, ?_⟩
  rw [membership_toList]
  -- from the last of the three tokens to the first one
  have hopening : Tokens false (name.length + 4) (['('] ++ (source.toList ++ [')'])) (_ :: _) :=
    .token (scans_of_scan rfl) rfl hclosed
  have hword : Tokens false (name.length + 1) (['i', 'n'] ++ ' ' :: '(' :: (source.toList ++ [')'])) (_ :: _) :=
    .token (scans_of_scan rfl) rfl (tokens_blank rfl hopening)
  have hlength : 0 + name.toList.length = name.length := by rw [Nat.zero_add, String.length_toList]
  have htokens := Tokens.token (hname.scans _) rfl (hlength ▸ tokens_blank rfl hword)
  rw [hlength, String.ofList_toList] at htokens
  exact htokens

end Tokens

end Criterion

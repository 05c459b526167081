import Criterion.Proofs.Patterns

/-!
# The tokens of a source

The scanner finds what stands at the head of a source by the patterns of the terminals, and the lexer
finds one token after the other.

* `scan_eq_some_iff`: **the scanner finds what stands at the head of a source.**
* `Tokens`: the tokens of a source, blanks and comments left out.
* `lex_eq_iff`: **the lexer finds the tokens of a source, if it has any.**
-/

namespace Criterion

open Computability

namespace Lexer

variable {p q : Pattern} {ps : List Pattern} {v v' w w' cs : List Char}

/-! ## The first pattern that fits -/

theorem Wins.append_left {qs : List Pattern} (h : Wins ps p v w) : Wins (ps ++ qs) p v w := by
  induction h with
  | here h => exact .here h
  | later hmiss _ ih => exact .later hmiss ih

theorem Wins.append_right {qs : List Pattern} (hmiss : ∀ q ∈ ps, q.Misses (v ++ w))
    (h : Wins qs p v w) : Wins (ps ++ qs) p v w := by
  induction ps with
  | nil => exact h
  | cons q ps ih =>
    obtain ⟨hq, hps⟩ := List.forall_mem_cons.1 hmiss
    exact .later hq (ih hps)

theorem isDigit_of_wordStart {c : Char} (hc : isWordStart c = true) : Text.isDigit c = false := by
  have hzeros : ∀ z ∈ Text.zeros, z = 48 ∨ 123 ≤ z := by decide
  have hrange : 58 ≤ c.toNat ∧ c.toNat < 123 ∨ c.toNat = 36 := by
    have hupper : ∀ {c : Char}, c.isUpper = true → 65 ≤ c.toNat ∧ c.toNat ≤ 90 := by
      intro c h
      have hbounds : 'A'.val ≤ c.val ∧ c.val ≤ 'Z'.val := of_decide_eq_true h
      exact hbounds
    have hlower : ∀ {c : Char}, c.isLower = true → 97 ≤ c.toNat ∧ c.toNat ≤ 122 := by
      intro c h
      obtain ⟨hlow, hhigh⟩ := Bool.and_eq_true_iff.1 h
      exact ⟨of_decide_eq_true hlow, of_decide_eq_true hhigh⟩
    unfold isWordStart at hc
    rw [Bool.or_eq_true, Bool.or_eq_true, beq_iff_eq, beq_iff_eq] at hc
    rcases hc with (hc | rfl) | rfl
    · rcases Bool.or_eq_true_iff.1 hc with hc | hc
      · have hbounds := hupper hc
        omega
      · have hbounds := hlower hc
        omega
    · decide
    · decide
  unfold Text.isDigit Text.digitValue?
  rw [Option.isSome_map, Option.isSome_eq_false_iff, Option.isNone_iff_eq_none, List.find?_eq_none]
  intro z hz
  have h := hzeros z hz
  simp
  omega

theorem number?_eq_none {c : Char} (hdigit : Text.isDigit c = false) (hpoint : c ≠ '.')
    (rest : List Char) : number? (c :: rest) = none := by
  have htake : (c :: rest).takeWhile Text.isDigit = [] := List.takeWhile_cons_of_neg (by simp [hdigit])
  have hdrop : (c :: rest).dropWhile Text.isDigit = c :: rest :=
    List.dropWhile_cons_of_neg (by simp [hdigit])
  have hfraction : fractionAt (c :: rest) = [] := by
    unfold fractionAt
    split
    · rename_i h
      exact absurd (List.cons.inj h).1 hpoint
    · rfl
  rw [number?_eq, htake, hdrop, hfraction]
  rfl

/-- A word is reserved if its spelling is. -/
theorem makes_wordKind {unary : Bool} (v : List Char) (hp : p.kind = .identifier) :
    p.Makes unary v (wordKind unary v) := by
  unfold wordKind
  dsimp only
  split
  · rename_i k hk
    obtain ⟨x, hx, rfl⟩ := Option.map_eq_some_iff.1 hk
    have hspelling := List.find?_some hx
    refine .reserved hp (List.mem_append_left _ (List.mem_map.2 ⟨x, List.mem_of_find?_eq_some hx, ?_⟩))
    simpa using hspelling
  · rename_i hno
    have hno : ∀ x ∈ Keyword.table, x.2.1 ≠ String.ofList v := by
      simpa [Keyword.ofSpelling?] using hno
    split
    · rename_i hnot
      obtain ⟨hunary, hspelling⟩ := Bool.and_eq_true_iff.1 hnot
      refine .reserved hp (List.mem_append_right _ ?_)
      simpa [hunary] using hspelling
    · rename_i hnot
      rw [← hp]
      refine .plain fun _ k hk => ?_
      rcases List.mem_append.1 hk with hk | hk
      · obtain ⟨x, hx, hxk⟩ := List.mem_map.1 hk
        exact hno x hx (congrArg Prod.snd hxk)
      · cases unary with
        | false => cases hk
        | true =>
          have hspelling := congrArg Prod.snd (List.mem_singleton.1 hk)
          exact hnot (by simpa using hspelling)

/-- A scanner of some patterns finds the text that the first of them takes, if one fits. -/
structure Scanned (unary : Bool) (ps : List Pattern) (cs : List Char)
    (r : Option (Terminal × ℕ)) : Prop where
  found : ∀ t n, r = some (t, n) →
    ∃ p v w, cs = v ++ w ∧ v.length = n ∧ Wins ps p v w ∧ p.Makes unary v t
  missed : r = none → ∀ p ∈ ps, p.Misses cs

variable {unary : Bool} {qs : List Pattern} {r s : Option (Terminal × ℕ)}

theorem Scanned.or (h : Scanned unary ps cs r) (h' : Scanned unary qs cs s) :
    Scanned unary (ps ++ qs) cs (r.or s) := by
  constructor
  · intro t n hn
    rcases Option.or_eq_some_iff.1 hn with hn | ⟨hnone, hn⟩
    · obtain ⟨p, v, w, hcs, hlength, hp, ht⟩ := h.found t n hn
      exact ⟨p, v, w, hcs, hlength, hp.append_left, ht⟩
    · obtain ⟨p, v, w, rfl, hlength, hp, ht⟩ := h'.found t n hn
      exact ⟨p, v, w, rfl, hlength, hp.append_right (h.missed hnone), ht⟩
  · intro hnone p hp
    obtain ⟨hr, hs⟩ := Option.or_eq_none_iff.1 hnone
    exact (List.mem_append.1 hp).elim (h.missed hr p) (h'.missed hs p)

theorem Pattern.Read.scanned {o : Option ℕ} (h : p.Read cs o) (hp : p.kind ≠ .identifier) :
    Scanned unary [p] cs (o.map fun n => (p.kind, n)) := by
  constructor
  · intro t n hn
    obtain ⟨m, hm, hpair⟩ := Option.map_eq_some_iff.1 hn
    cases hpair
    obtain ⟨v, w, hcs, hlength, htakes⟩ := h.taken _ hm
    exact ⟨p, v, w, hcs, hlength, .here htakes, .plain fun hp' => absurd hp' hp⟩
  · intro hnone q hq
    rw [List.mem_singleton.1 hq]
    exact h.missed (Option.map_eq_none_iff.1 hnone)

/-- The first reader of a list that finds something reads the first pattern that fits. -/
theorem scanned_findSome? {ι : Type} {xs : List ι} {f : ι → Pattern} {o : ι → Option ℕ}
    (h : ∀ x ∈ xs, (f x).Read cs (o x) ∧ (f x).kind ≠ .identifier) :
    Scanned unary (xs.map f) cs (xs.findSome? fun x => (o x).map fun n => ((f x).kind, n)) := by
  induction xs with
  | nil => exact ⟨fun _ _ hn => (nomatch hn), fun _ p hp => absurd hp List.not_mem_nil⟩
  | cons x xs ih =>
    obtain ⟨⟨hx, hkind⟩, hxs⟩ := List.forall_mem_cons.1 h
    have hor := (hx.scanned hkind).or (ih hxs)
    rw [List.findSome?_cons]
    cases hr : o x with
    | none => simpa [hr] using hor
    | some m => simpa [hr] using hor

theorem scanned_name (cs : List Char) : Scanned unary [namePattern] cs
    (if cs.head?.any isWordStart then
      some (wordKind unary (cs.takeWhile isWordPart), (cs.takeWhile isWordPart).length)
    else none) := by
  have hpart : ∀ c, isWordStart c = true → isWordPart c = true := by
    intro c hc
    simp [isWordPart, hc]
  have hread : namePattern.Read cs _ := read_run hpart .identifier cs
  constructor
  · intro t n hn
    split at hn
    · rename_i hstart
      cases hn
      obtain ⟨v, w, hcs, hlength, htakes⟩ := hread.taken _ (if_pos hstart)
      -- the text that is taken is the longest run of word characters
      have hsplit := List.takeWhile_append_dropWhile (p := isWordPart) (l := cs)
      obtain ⟨hv, -⟩ := List.append_inj (hcs.symm.trans hsplit.symm) hlength
      rw [← hv]
      exact ⟨namePattern, v, w, hcs, rfl, .here htakes, makes_wordKind v rfl⟩
    · cases hn
  · intro hn q hq
    rw [List.mem_singleton.1 hq]
    split at hn
    · cases hn
    · rename_i hstart
      exact hread.missed (if_neg hstart)

theorem word?_eq (unary : Bool) (cs : List Char) : word? unary cs =
    (phrases.findSome? fun (t, first, more) => (phrase? first more cs).map fun n => (t, n)).or
      ((if cs.head?.any isWordStart then
          some (wordKind unary (cs.takeWhile isWordPart), (cs.takeWhile isWordPart).length)
        else none).or
      (((number? cs).map fun n => (.number, n)).or
      (((if cs.head? = '"' then (closing? cs.tail).map (· + 1) else none).map
          fun n => (.string, n)).or
      ((if cs.head?.any isSpace then some (cs.takeWhile isSpace).length else none).map
          fun n => (.blank, n))))) := by
  have hquote : isWordStart '"' = false ∧ isSpace '"' = false := by decide
  unfold word?
  cases phrases.findSome? fun (t, first, more) => (phrase? first more cs).map fun n => (t, n) with
  | some found => rfl
  | none =>
    rw [Option.none_or]
    cases cs with
    | nil => rfl
    | cons c rest =>
      by_cases hstart : isWordStart c = true
      · have hpoint : c ≠ '.' := by
          rintro rfl
          exact absurd hstart (by decide)
        have hc : c ≠ '"' := by
          rintro rfl
          exact absurd hstart (by decide)
        simp [number?_eq_none (isDigit_of_wordStart hstart) hpoint, hstart, hc]
      · cases hnumber : number? (c :: rest) with
        | some n => simp [hstart]
        | none =>
          by_cases hc : c = '"'
          · subst hc
            simp [hquote.1, hquote.2, Function.comp_def]
          · by_cases hspace : isSpace c = true
            · simp [hstart, hc, hspace]
            · simp [hstart, hc, hspace]

theorem scanned_word (cs : List Char) : Scanned unary wordPatterns cs (word? unary cs) := by
  have hphrases : ∀ x ∈ phrases, (phrasePattern x.1 x.2.1 x.2.2).Read cs (phrase? x.2.1 x.2.2 cs) ∧
      (phrasePattern x.1 x.2.1 x.2.2).kind ≠ .identifier := by
    intro x hx
    have hkind : ∀ x ∈ phrases, x.1 ≠ .identifier := by decide
    exact ⟨read_phrase (phrases_firm x hx) cs, hkind x hx⟩
  have hblank : blankPattern.Read cs _ := read_run (fun _ hc => hc) .blank cs
  rw [word?_eq]
  exact (scanned_findSome? hphrases).or ((scanned_name cs).or (((read_number cs).scanned (by decide)).or
    (((read_string cs).scanned (by decide)).or (hblank.scanned (by decide)))))

theorem scanned_comment (cs : List Char) :
    Scanned unary [blockPattern, linePattern] cs (comment? cs) := by
  have hblock : (∀ rest, cs ≠ '/' :: '*' :: rest) → blockPattern.Misses cs := by
    intro hno v w hcs h
    obtain ⟨u, rfl⟩ := mem_blockComment.1 h.text
    exact hno _ (by simpa using hcs)
  have hline : (∀ rest, cs ≠ '/' :: '/' :: rest) → linePattern.Misses cs := by
    intro hno v w hcs h
    obtain ⟨u, rfl, -⟩ := mem_lineComment.1 h.text
    exact hno _ hcs
  unfold comment?
  split
  · rename_i rest
    have hmiss := hblock fun _ h => by cases h
    refine ⟨fun t n hn => ?_, fun hn => by cases hn⟩
    cases hn
    have hsplit : '/' :: '/' :: rest =
        ('/' :: '/' :: rest.takeWhile (· != '\n')) ++ rest.dropWhile (· != '\n') := by
      rw [List.cons_append, List.cons_append, List.takeWhile_append_dropWhile]
    rw [hsplit] at hmiss
    exact ⟨linePattern, _, _, hsplit, by simp only [List.length_cons]; omega,
      .later hmiss (.here (takes_line rest)), .plain fun h => by cases h⟩
  · rename_i rest
    have hmiss := hline fun _ h => by cases h
    have hread : Scanned unary [blockPattern] _ _ := (read_block rest).scanned (by decide)
    rw [Option.map_map] at hread
    refine ⟨fun t n hn => ?_, fun hn => List.forall_mem_cons.2 ⟨hread.missed hn _ (.head _), ?_⟩⟩
    · obtain ⟨p, v, w, hcs, hlength, hp, ht⟩ := hread.found t n hn
      have hp : Wins ([blockPattern] ++ [linePattern]) p v w := hp.append_left
      exact ⟨p, v, w, hcs, hlength, hp, ht⟩
    · exact List.forall_mem_singleton.2 hmiss
  · rename_i hline' hblock'
    refine ⟨fun t n hn => (nomatch hn), fun _ => List.forall_mem_cons.2 ⟨hblock hblock', ?_⟩⟩
    exact List.forall_mem_singleton.2 (hline hline')

theorem scanned_symbol (cs : List Char) : Scanned unary
    (symbols.map fun (kind, text) => plainPattern kind (spelled text)) cs (symbol? cs) := by
  have hkind : ∀ x ∈ symbols, x.1 ≠ .identifier := by decide
  exact scanned_findSome? fun x hx => ⟨read_spelled x.1 x.2 cs, hkind x hx⟩

theorem scanned (cs : List Char) : Scanned unary patterns cs (scan? unary cs) :=
  ((scanned_word cs).or (scanned_comment cs)).or (scanned_symbol cs)

/-- **The scanner finds what stands at the head of a source.** -/
theorem scan_eq_some_iff {t : Terminal} {n : ℕ} : scan? unary cs = some (t, n) ↔
    ∃ v w, cs = v ++ w ∧ v.length = n ∧ Scans unary v w t := by
  constructor
  · intro h
    obtain ⟨p, v, w, hcs, hlength, hp, ht⟩ := (scanned cs).found t n h
    exact ⟨v, w, hcs, hlength, p, hp, ht⟩
  · rintro ⟨v, w, rfl, rfl, h⟩
    cases hscan : scan? unary (v ++ w) with
    | none =>
      obtain ⟨p, hp, -⟩ := h
      exact absurd hp.takes.fits ((scanned (v ++ w)).missed hscan p hp.mem v w rfl)
    | some found =>
      obtain ⟨p, v', w', hcs, hlength, hp, ht⟩ := (scanned (v ++ w)).found found.1 found.2 hscan
      obtain ⟨rfl, -, rfl⟩ := h.unique ⟨p, hp, ht⟩ hcs
      rw [hlength]

theorem nil_notMem_text : ∀ p ∈ patterns, [] ∉ p.text := by
  have hphrases : ∀ x ∈ phrases, x.2.1.toList ≠ [] := by decide
  have hsymbols : ∀ x ∈ symbols, x.2.toList ≠ [] := by decide
  have hrun : ∀ {f : Char → Bool} {L : Language Char}, [] ∉ charOf f * L := by
    intro f L h
    obtain ⟨c, rest, hnil, -⟩ := mem_charOf_mul.1 h
    cases hnil
  have hspelled : ∀ {s : String} {L : Language Char}, s.toList ≠ [] → [] ∉ spelled s * L := by
    intro s L hs h
    obtain ⟨rest, hnil, -⟩ := mem_spelled_mul.1 h
    exact hs (List.append_eq_nil_iff.1 hnil.symm).1
  intro p hp h
  simp only [patterns, wordPatterns, List.mem_append, List.mem_map, List.mem_cons, List.not_mem_nil,
    or_false] at hp
  rcases hp with ((⟨x, hx, rfl⟩ | rfl | rfl | rfl | rfl) | rfl | rfl) | ⟨x, hx, rfl⟩
  · exact hspelled (hphrases x hx) h
  · exact hrun h
  · obtain ⟨whole, fraction, -, -, ⟨rfl, hne⟩ | ⟨hnil, -⟩⟩ := mem_number.1 h
    · exact hne rfl
    · simp at hnil
  · have htext : [] ∈ spelled "\"" * (stringPart∗ * spelled "\"") := by
      rw [← mul_assoc]
      exact h
    exact hspelled (by decide) htext
  · exact hrun h
  · obtain ⟨u, hnil⟩ := mem_blockComment.1 h
    cases hnil
  · obtain ⟨u, hnil, -⟩ := mem_lineComment.1 h
    cases hnil
  · exact hsymbols x hx (Eq.symm h)

/-- No terminal is empty. -/
theorem Scans.ne_nil {t : Terminal} (h : Scans unary v w t) : v ≠ [] := by
  obtain ⟨p, hp, -⟩ := h
  rintro rfl
  exact nil_notMem_text p hp.mem hp.takes.fits.text

end Lexer

/-! ## The tokens of a source -/

/-- The text `cs`, which starts at `position`, has the tokens `ls`. -/
inductive Tokens (unary : Bool) : ℕ → List Char → List Lexeme → Prop where
  | done {position : ℕ} : Tokens unary position [] []
  | trivia {position : ℕ} {v w : List Char} {t : Terminal} {ls : List Lexeme} :
    Lexer.Scans unary v w t → t.isTrivia = true → Tokens unary (position + v.length) w ls →
      Tokens unary position (v ++ w) ls
  | token {position : ℕ} {v w : List Char} {t : Terminal} {ls : List Lexeme} :
    Lexer.Scans unary v w t → t.isTrivia = false → Tokens unary (position + v.length) w ls →
      Tokens unary position (v ++ w)
        (⟨t, String.ofList v, position, position + v.length⟩ :: ls)

section Tokens

variable {unary : Bool} {position fuel : ℕ} {v w cs : List Char} {t : Terminal} {ls : List Lexeme}

theorem tokens_nil_iff : Tokens unary position [] ls ↔ ls = [] := by
  constructor
  · generalize hcs : ([] : List Char) = cs
    intro h
    cases h with
    | done => rfl
    | trivia hscan => exact absurd (List.append_eq_nil_iff.1 hcs.symm).1 hscan.ne_nil
    | token hscan => exact absurd (List.append_eq_nil_iff.1 hcs.symm).1 hscan.ne_nil
  · rintro rfl
    exact .done

/-- The tokens begin with what stands at the head of the text. -/
theorem tokens_append_iff (hscan : Lexer.Scans unary v w t) : Tokens unary position (v ++ w) ls ↔
    if t.isTrivia then Tokens unary (position + v.length) w ls
    else ∃ rest, ls = ⟨t, String.ofList v, position, position + v.length⟩ :: rest ∧
      Tokens unary (position + v.length) w rest := by
  constructor
  · generalize hcs : v ++ w = cs
    intro h
    cases h with
    | done => exact absurd (List.append_eq_nil_iff.1 hcs).1 hscan.ne_nil
    | trivia hscan' ht h =>
      obtain ⟨rfl, rfl, rfl⟩ := hscan.unique hscan' hcs
      rwa [if_pos ht]
    | token hscan' ht h =>
      obtain ⟨rfl, rfl, rfl⟩ := hscan.unique hscan' hcs
      rw [ht]
      exact ⟨_, rfl, h⟩
  · intro h
    split at h
    · exact .trivia hscan ‹_› h
    · obtain ⟨rest, rfl, hrest⟩ := h
      exact .token hscan (Bool.eq_false_of_not_eq_true ‹_›) hrest

theorem exists_scans_of_tokens (h : Tokens unary position cs ls) (hcs : cs ≠ []) :
    ∃ v w t, cs = v ++ w ∧ Lexer.Scans unary v w t := by
  cases h with
  | done => exact absurd rfl hcs
  | trivia hscan => exact ⟨_, _, _, rfl, hscan⟩
  | token hscan => exact ⟨_, _, _, rfl, hscan⟩

theorem lexFrom_eq_iff (hfuel : cs.length ≤ fuel) :
    lexFrom unary position fuel cs = ⟨ls, none⟩ ↔ Tokens unary position cs ls := by
  induction fuel generalizing position cs ls with
  | zero =>
    obtain rfl := List.length_eq_zero_iff.1 (Nat.le_zero.1 hfuel)
    rw [tokens_nil_iff, lexFrom, Lexed.mk.injEq]
    simp [eq_comm]
  | succ fuel ih =>
    cases cs with
    | nil =>
      rw [tokens_nil_iff, lexFrom, Lexed.mk.injEq]
      · simp [eq_comm]
      · simp
    | cons c cs =>
      rw [lexFrom]
      · cases hscan : Lexer.scan? unary (c :: cs) with
        | none =>
          constructor
          · intro h
            cases h
          · intro h
            obtain ⟨v, w, t, hcs, hs⟩ := exists_scans_of_tokens h (List.cons_ne_nil _ _)
            have hsome := Lexer.scan_eq_some_iff.2 ⟨v, w, hcs, rfl, hs⟩
            rw [hscan] at hsome
            cases hsome
        | some found =>
          obtain ⟨t, n⟩ := found
          obtain ⟨v, w, hcs, rfl, hs⟩ := Lexer.scan_eq_some_iff.1 hscan
          have hpos := List.length_pos_iff.2 hs.ne_nil
          -- no token is empty, so there is fuel enough for what is behind it
          have hle : w.length ≤ fuel := by
            have hlength := congrArg List.length hcs
            rw [List.length_append] at hlength
            omega
          rw [hcs, tokens_append_iff hs]
          simp only [List.drop_left, List.take_left]
          by_cases ht : t.isTrivia = true
          · rw [if_pos ht, if_pos ht]
            exact ih hle
          · rw [if_neg ht, if_neg ht, Lexed.mk.injEq]
            constructor
            · rintro ⟨rfl, hstop⟩
              refine ⟨_, rfl, (ih hle).1 ?_⟩
              rw [← hstop]
            · rintro ⟨rest, rfl, hrest⟩
              rw [(ih hle).2 hrest]
              exact ⟨rfl, rfl⟩
      · simp

/-- The tokens end one after the other. -/
theorem Tokens.ordered (h : Tokens unary position cs ls) :
    (position :: ls.map (·.stop)).Pairwise (· < ·) := by
  induction h with
  | done => exact List.pairwise_singleton _ _
  | @trivia position v _ _ _ hscan _ _ ih =>
    obtain ⟨hfirst, hrest⟩ := List.pairwise_cons.1 ih
    refine List.pairwise_cons.2 ⟨fun stop hstop => ?_, hrest⟩
    have hlt := hfirst stop hstop
    omega
  | @token position v _ _ _ hscan _ _ ih =>
    have hpos := List.length_pos_iff.2 hscan.ne_nil
    refine List.pairwise_cons.2 ⟨fun stop hstop => ?_, ih⟩
    obtain ⟨hfirst, -⟩ := List.pairwise_cons.1 ih
    rcases List.mem_cons.1 hstop with rfl | hstop
    · exact Nat.lt_add_of_pos_right hpos
    · have hlt := hfirst stop hstop
      omega

end Tokens

/-- **The lexer finds the tokens of a source, if it has any.** -/
theorem lex_eq_iff {unary : Bool} {source : String} {ls : List Lexeme} :
    lex unary source = ⟨ls, none⟩ ↔ Tokens unary 0 source.toList ls :=
  lexFrom_eq_iff (le_of_eq String.length_toList)

end Criterion

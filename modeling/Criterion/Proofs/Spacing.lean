import Criterion.Proofs.Wrapping

/-!
# What may follow a token

A token stays what it is when other text follows it, if a blank comes before that text differs and no builtin
name of several words comes about.

* `mem_patterns_iff`: the patterns one by one.
* `text_cases`: what a text of a pattern begins with.
* `scans_phrase`: a builtin name of several words is read wherever it is called.
* `Scans.respaced`: **any other token is read where it was read, if a blank comes before the text differs.**
-/

namespace Criterion

open Computability

namespace Lexer

variable {unary : Bool} {p q : Pattern} {ps qs : List Pattern} {t : Terminal} {u v w w' x y z r r' : List Char}
  {c : Char}

/-! ## Characters and patterns -/

theorem isBlank_of_isSpace (hc : isSpace c = true) : Text.isBlank c = true := by
  rcases isSpace_cases hc with rfl | rfl | rfl | rfl | rfl <;> decide

theorem isBlank_of_isDigit (hc : Text.isDigit c = true) : Text.isBlank c = false := by
  have hzeros : ∀ z ∈ Text.zeros, z = 48 ∨ 0x660 ≤ z ∧ z ≤ 0x1676 ∨ 0x1681 ≤ z ∧ z ≤ 0x1ff0 ∨ 0x3001 ≤ z := by
    decide
  unfold Text.isDigit Text.digitValue? at hc
  rw [Option.isSome_map, List.find?_isSome] at hc
  obtain ⟨z, hz, hrange⟩ := hc
  have hz := hzeros z hz
  simp only [Bool.and_eq_true, decide_eq_true_eq] at hrange
  unfold Text.isBlank
  simp only [Bool.or_eq_false_iff, Bool.and_eq_false_iff, decide_eq_false_iff_not, beq_eq_false_iff_ne]
  omega

/-- The patterns one by one. -/
theorem mem_patterns_iff : p ∈ patterns ↔ (∃ x ∈ phrases, p = phrasePattern x.1 x.2.1 x.2.2) ∨
    p = namePattern ∨ p = numberPattern ∨ p = stringPattern ∨ p = blankPattern ∨ p = blockPattern ∨
      p = linePattern ∨ ∃ x ∈ symbols, p = plainPattern x.1 (spelled x.2) := by
  simp only [patterns, wordPatterns, List.mem_append, List.mem_map, List.mem_cons, List.not_mem_nil, or_false,
    or_assoc, eq_comm (b := p)]

theorem mem_string : v ∈ stringPattern.text ↔
    ∃ rest, v = '"' :: rest ∧ rest ∈ stringPart∗ * spelled "\"" := by
  have htext : stringPattern.text = spelled "\"" * (stringPart∗ * spelled "\"") := mul_assoc _ _ _
  rw [htext, mem_spelled_mul]
  rfl

/-- What a text of a pattern begins with. -/
theorem text_cases (hp : p ∈ patterns) (h : c :: u ∈ p.text) :
    isWordStart c = true ∧ (p.called = true ∨ p = namePattern) ∨
    p = numberPattern ∧ (Text.isDigit c = true ∨ c = '.') ∨ p = stringPattern ∧ c = '"' ∨
    p = blankPattern ∧ isSpace c = true ∨ p = blockPattern ∧ c = '/' ∧ u.head? = some '*' ∨
    p = linePattern ∧ c = '/' ∧ u.head? = some '/' ∨
    ∃ x ∈ symbols, p = plainPattern x.1 (spelled x.2) ∧ c :: u = x.2.toList := by
  have hphrases : ∀ x ∈ phrases, ∃ d word, x.2.1.toList = d :: word ∧ isWordStart d = true := by
    simp [phrases, isWordStart]
  rcases mem_patterns_iff.1 hp with ⟨x, hx, rfl⟩ | rfl | rfl | rfl | rfl | rfl | rfl | ⟨x, hx, rfl⟩
  · obtain ⟨rest, hrest, -⟩ := mem_spelled_mul.1 h
    obtain ⟨d, word, hword, hd⟩ := hphrases x hx
    rw [hword, List.cons_append] at hrest
    rw [(List.cons.inj hrest).1]
    exact .inl ⟨hd, .inl rfl⟩
  · obtain ⟨d, rest, hrest, hd, -⟩ := mem_charOf_mul.1 h
    rw [(List.cons.inj hrest).1]
    exact .inl ⟨hd, .inr rfl⟩
  · refine .inr (.inl ⟨rfl, ?_⟩)
    obtain ⟨whole, fraction, hwhole, -, ⟨rfl, -⟩ | ⟨hcu, -⟩⟩ := mem_number.1 h
    · exact .inl (hwhole c List.mem_cons_self)
    · cases whole with
      | nil => exact .inr (List.cons.inj hcu).1
      | cons d whole =>
        rw [List.cons_append] at hcu
        rw [(List.cons.inj hcu).1]
        exact .inl (hwhole d List.mem_cons_self)
  · refine .inr (.inr (.inl ⟨rfl, ?_⟩))
    obtain ⟨rest, hrest, -⟩ := mem_string.1 h
    exact (List.cons.inj hrest).1
  · obtain ⟨-, hall⟩ := mem_charsOf.1 h
    exact .inr (.inr (.inr (.inl ⟨rfl, hall c List.mem_cons_self⟩)))
  · obtain ⟨rest, hrest⟩ := mem_blockComment.1 h
    obtain ⟨rfl, rfl⟩ := List.cons.inj hrest
    exact .inr (.inr (.inr (.inr (.inl ⟨rfl, rfl, rfl⟩))))
  · obtain ⟨rest, hrest, -⟩ := mem_lineComment.1 h
    obtain ⟨rfl, rfl⟩ := List.cons.inj hrest
    exact .inr (.inr (.inr (.inr (.inr (.inl ⟨rfl, rfl, rfl⟩)))))
  · exact .inr (.inr (.inr (.inr (.inr (.inr ⟨x, hx, rfl, h⟩)))))

theorem symbols_firm : ∀ x ∈ symbols, ∀ c ∈ x.2.toList, Text.isBlank c = false ∧ c ≠ '"' := by
  simp [symbols, Text.isBlank]

/-- Only strings begin with a quote. -/
theorem eq_string (hp : p ∈ patterns) (h : '"' :: u ∈ p.text) : p = stringPattern := by
  rcases text_cases hp h with ⟨hc, -⟩ | ⟨-, hc | hc⟩ | ⟨rfl, -⟩ | ⟨-, hc⟩ | ⟨-, hc, -⟩ | ⟨-, hc, -⟩ |
    ⟨x, hx, -, htext⟩
  · exact absurd hc (by decide)
  · exact absurd hc (by decide)
  · exact absurd hc (by decide)
  · rfl
  · exact absurd hc (by decide)
  · exact absurd hc (by decide)
  · exact absurd hc (by decide)
  · exact absurd rfl (symbols_firm x hx '"' (htext ▸ List.mem_cons_self)).2

/-- Only runs of blanks begin with a blank. -/
theorem eq_blank (hp : p ∈ patterns) (h : c :: u ∈ p.text) (hc : Text.isBlank c = true) : p = blankPattern := by
  have hfirm : ∀ {c}, Text.isBlank c = true → isWordStart c = false ∧ Text.isDigit c = false := by
    intro c hc
    constructor
    · refine Bool.eq_false_of_not_eq_true fun hstart => ?_
      rw [isBlank_of_wordPart (by simp [isWordPart, hstart])] at hc
      cases hc
    · refine Bool.eq_false_of_not_eq_true fun hdigit => ?_
      rw [isBlank_of_isDigit hdigit] at hc
      cases hc
  rcases text_cases hp h with ⟨hstart, -⟩ | ⟨-, hdigit | rfl⟩ | ⟨-, rfl⟩ | ⟨rfl, -⟩ | ⟨-, rfl, -⟩ |
    ⟨-, rfl, -⟩ | ⟨x, hx, -, htext⟩
  · rw [(hfirm hc).1] at hstart
    cases hstart
  · rw [(hfirm hc).2] at hdigit
    cases hdigit
  · exact absurd hc (by decide)
  · exact absurd hc (by decide)
  · rfl
  · exact absurd hc (by decide)
  · exact absurd hc (by decide)
  · rw [(symbols_firm x hx c (htext ▸ List.mem_cons_self)).1] at hc
    cases hc

/-- Only comments begin with a slash and a slash or a star. -/
theorem eq_comment (hp : p ∈ patterns) {d : Char} (h : '/' :: d :: u ∈ p.text) :
    p = blockPattern ∧ d = '*' ∨ p = linePattern ∧ d = '/' := by
  have hsymbols : ∀ x ∈ symbols, x.2.toList.head? = some '/' → x.2.toList = ['/'] := by decide
  rcases text_cases hp h with ⟨hc, -⟩ | ⟨-, hc | hc⟩ | ⟨-, hc⟩ | ⟨-, hc⟩ | ⟨hp, -, hd⟩ | ⟨hp, -, hd⟩ |
    ⟨x, hx, -, htext⟩
  · exact absurd hc (by decide)
  · exact absurd hc (by decide)
  · exact absurd hc (by decide)
  · exact absurd hc (by decide)
  · exact absurd hc (by decide)
  · exact .inl ⟨hp, Option.some.inj hd⟩
  · exact .inr ⟨hp, Option.some.inj hd⟩
  · have hsingle := hsymbols x hx (htext ▸ rfl)
    rw [← htext] at hsingle
    cases hsingle

/-- Which texts have blanks in them. -/
theorem blank_in_text (hp : p ∈ patterns) (hcalled : p.called = false) (hu : u ∈ p.text) (hc : c ∈ u)
    (hblank : Text.isBlank c = true) :
    p = stringPattern ∨ p = blankPattern ∨ p = blockPattern ∨ p = linePattern := by
  rcases mem_patterns_iff.1 hp with ⟨x, hx, rfl⟩ | rfl | rfl | rfl | rfl | rfl | rfl | ⟨x, hx, rfl⟩
  · cases hcalled
  · obtain ⟨d, rest, rfl, hd, hrest⟩ := mem_charOf_mul.1 hu
    have hall : ∀ e ∈ d :: rest, isWordPart e = true :=
      List.forall_mem_cons.2 ⟨by simp [isWordPart, hd], mem_charOf_kstar.1 hrest⟩
    rw [isBlank_of_wordPart (hall c hc)] at hblank
    cases hblank
  · have hdigit : Text.isDigit c = true ∨ c = '.' := by
      obtain ⟨whole, fraction, hwhole, hfraction, ⟨rfl, -⟩ | ⟨rfl, -⟩⟩ := mem_number.1 hu
      · exact .inl (hwhole c hc)
      · rcases List.mem_append.1 hc with hc | hc
        · exact .inl (hwhole c hc)
        · rcases List.mem_cons.1 hc with hc | hc
          · exact .inr hc
          · exact .inl (hfraction c hc)
    rcases hdigit with hdigit | rfl
    · rw [isBlank_of_isDigit hdigit] at hblank
      cases hblank
    · exact absurd hblank (by decide)
  · exact .inl rfl
  · exact .inr (.inl rfl)
  · exact .inr (.inr (.inl rfl))
  · exact .inr (.inr (.inr rfl))
  · have htext : u = x.2.toList := hu
    rw [(symbols_firm x hx c (htext ▸ hc)).1] at hblank
    cases hblank

/-! ## Builtin names of several words -/

/-- Whether a terminal is a builtin name of several words. -/
def isPhrase : Terminal → Bool
  | .specialName | .dateAndTime => true
  | _ => false

theorem phrases_kind : ∀ x ∈ phrases, x.1 ≠ .identifier ∧ isPhrase x.1 = true := by decide

/-- A pattern that wins and is not among the first ones is preceded by patterns that miss. -/
theorem Wins.missed (h : Wins (ps ++ qs) p v w) (hp : p ∉ ps) : ∀ q ∈ ps, q.Misses (v ++ w) := by
  induction ps with
  | nil => exact List.forall_mem_nil _
  | cons q ps ih =>
    rw [List.mem_cons, not_or] at hp
    cases h with
    | here _ => exact absurd rfl hp.1
    | later hmiss h => exact List.forall_mem_cons.2 ⟨hmiss, ih h hp.2⟩

/-- The pattern of a builtin name of several words. -/
abbrev phraseOf (x : Terminal × String × List String) : Pattern := phrasePattern x.1 x.2.1 x.2.2

/-- The patterns of the builtin names of several words come first. -/
theorem patterns_eq : patterns = phrases.map phraseOf ++
    ([namePattern, numberPattern, stringPattern, blankPattern] ++ [blockPattern, linePattern] ++
      symbols.map fun x => plainPattern x.1 (spelled x.2)) := by
  simp only [patterns, wordPatterns, List.append_assoc]

theorem kind_of_makes (h : p.Makes unary v t) (hp : p.kind ≠ .identifier) : t = p.kind := by
  cases h with
  | reserved hkind _ => exact absurd hkind hp
  | plain _ => rfl

/-- A builtin name of several words comes from its pattern. -/
theorem phrase_of_scans (h : Scans unary v w t) (ht : isPhrase t = true) :
    ∃ x ∈ phrases, x.1 = t ∧ (phraseOf x).Fits v w := by
  have hsymbols : ∀ x ∈ symbols, isPhrase x.1 = false := by decide
  obtain ⟨p, hp, hmakes⟩ := h
  have hkind : isPhrase p.kind = true := by
    cases hmakes with
    | reserved => cases ht
    | plain => exact ht
  rcases mem_patterns_iff.1 hp.mem with ⟨x, hx, rfl⟩ | rfl | rfl | rfl | rfl | rfl | rfl | ⟨x, hx, rfl⟩
  · exact ⟨x, hx, (kind_of_makes hmakes (phrases_kind x hx).1).symm, hp.takes.fits⟩
  · cases hkind
  · cases hkind
  · cases hkind
  · cases hkind
  · cases hkind
  · cases hkind
  · rw [show isPhrase (plainPattern x.1 (spelled x.2)).kind = isPhrase x.1 from rfl, hsymbols x hx] at hkind
    cases hkind

/-- Where another token stands, no builtin name of several words does. -/
theorem Scans.phrases_miss (h : Scans unary v w t) (ht : isPhrase t = false) :
    ∀ x ∈ phrases, (phraseOf x).Misses (v ++ w) := by
  obtain ⟨p, hp, hmakes⟩ := h
  have hnot : p ∉ phrases.map phraseOf := by
    intro hmem
    obtain ⟨x, hx, rfl⟩ := List.mem_map.1 hmem
    obtain ⟨hkind, hphrase⟩ := phrases_kind x hx
    rw [kind_of_makes hmakes hkind, show (phraseOf x).kind = x.1 from rfl, hphrase] at ht
    cases ht
  rw [patterns_eq] at hp
  exact fun x hx => hp.missed hnot _ (List.mem_map_of_mem hx)

/-- Builtin names of several words differ in their first words. -/
theorem phrase_unique {a b : Terminal × String × List String} (ha : a ∈ phrases) (hb : b ∈ phrases)
    (hcs : v ++ w = u ++ x) (hv : v ∈ (phraseOf a).text) (hu : u ∈ (phraseOf b).text) : a = b := by
  have hfirst : ∀ a ∈ phrases, ∀ b ∈ phrases,
      a = b ∨ ¬ a.2.1.toList <+: b.2.1.toList ∧ ¬ b.2.1.toList <+: a.2.1.toList := by decide
  obtain ⟨v, rfl, -⟩ := mem_spelled_mul.1 hv
  obtain ⟨u, rfl, -⟩ := mem_spelled_mul.1 hu
  refine (hfirst a ha b hb).resolve_right fun ⟨hab, hba⟩ => ?_
  rw [List.append_assoc, List.append_assoc] at hcs
  rcases List.append_eq_append_iff.1 hcs with ⟨z, hz, -⟩ | ⟨z, hz, -⟩
  · exact hab ⟨z, hz.symm⟩
  · exact hba ⟨z, hz.symm⟩

/-- What fits of a builtin name of several words fits in one way. -/
theorem phrase_takes {a : Terminal × String × List String} (ha : a ∈ phrases) (h : (phraseOf a).Fits v w) :
    (phraseOf a).Takes v w := by
  refine .of_unique h fun v' w' hcs h' => ?_
  obtain ⟨u, rfl, hu⟩ := mem_spelled_mul.1 h.text
  obtain ⟨u', rfl, hu'⟩ := mem_spelled_mul.1 h'.text
  rw [List.append_assoc, List.append_assoc] at hcs
  have hbehind := List.append_cancel_left hcs
  -- the words with the blanks between them end where the last word ends
  have hafter := (afterWords?_eq_some (phrases_firm a ha)).2 ⟨u, hbehind, hu⟩
  rw [(afterWords?_eq_some (phrases_firm a ha)).2 ⟨u', rfl, hu'⟩] at hafter
  cases hafter
  rw [List.append_cancel_right hbehind]

/-- **A builtin name of several words is read wherever an opening parenthesis follows it.** -/
theorem scans_phrase {a : Terminal × String × List String} (ha : a ∈ phrases) (h : (phraseOf a).Fits v w) :
    Scans unary v w a.1 := by
  obtain ⟨ps, qs, hsplit⟩ := List.append_of_mem ha
  have hnodup : phrases.Nodup := by decide
  have hmiss : ∀ q ∈ ps.map phraseOf, q.Misses (v ++ w) := by
    intro q hq u x hcs hfits
    obtain ⟨b, hb, rfl⟩ := List.mem_map.1 hq
    have hbmem : b ∈ phrases := by
      rw [hsplit]
      exact List.mem_append_left _ hb
    obtain rfl := phrase_unique ha hbmem hcs h.text hfits.text
    rw [hsplit, List.nodup_append] at hnodup
    exact hnodup.2.2 a hb a List.mem_cons_self rfl
  refine ⟨phraseOf a, ?_, .plain fun hkind => absurd hkind (phrases_kind a ha).1⟩
  rw [patterns_eq, hsplit, List.map_append, List.map_cons, List.append_assoc]
  exact .append_right hmiss (.here (phrase_takes ha h))

/-! ## Text that differs behind a blank -/

/-- A text of a pattern that asks for nothing behind it. -/
theorem fits_of_text (hcalled : p.called = false) (hv : v ∈ p.text) : p.Fits v w :=
  ⟨hv, fun h => absurd h (by simp [hcalled])⟩

/-- No string is the beginning of another one. -/
theorem string_whole (hv : v ∈ stringPattern.text) (hvy : v ++ y ∈ stringPattern.text) : y = [] := by
  obtain ⟨a, rfl, ha⟩ := mem_string.1 hv
  obtain ⟨b, hb, hmem⟩ := mem_string.1 hvy
  rw [List.cons_append] at hb
  rw [← (List.cons.inj hb).2] at hmem
  have hends := closing?_append hmem []
  rw [List.append_nil, closing?_append ha] at hends
  have hlength := Option.some.inj hends
  rw [List.length_append] at hlength
  exact List.length_eq_zero_iff.1 (by omega)

/-- Whether a text has the end of a block comment in it. -/
def Closes (cs : List Char) : Prop := ∃ a b, cs = a ++ '*' :: '/' :: b

/-- An end of a comment does not reach over a blank. -/
theorem Closes.behind (h : Closes (z ++ c :: r')) (hc : Text.isBlank c = true) (hr : Closes (c :: r') → Closes r) :
    Closes (z ++ r) := by
  obtain ⟨a, b, hab⟩ := h
  rcases List.append_eq_append_iff.1 hab with ⟨a', rfl, hrest⟩ | ⟨z', rfl, hrest⟩
  · obtain ⟨a'', b', rfl⟩ := hr ⟨a', b, hrest⟩
    exact ⟨z ++ a'', b', by rw [List.append_assoc]⟩
  · match z', hrest with
    | [], hrest =>
      cases hrest
      exact absurd hc (by decide)
    | [_], hrest =>
      cases hrest
      exact absurd hc (by decide)
    | _ :: _ :: z', hrest =>
      cases hrest
      exact ⟨a, z' ++ r, by simp⟩

/-- A pattern wins before another text if what misses goes on to miss. -/
theorem Wins.behind (h : Wins ps p v w) (hmiss : ∀ q, q ∈ patterns → q.Misses (v ++ w) → q.Misses (v ++ w'))
    (hps : ∀ q ∈ ps, q ∈ patterns) (htakes : p.Takes v w') : Wins ps p v w' := by
  induction h with
  | here _ => exact .here htakes
  | @later p q ps v w hq _ ih =>
    obtain ⟨hmem, hps⟩ := List.forall_mem_cons.1 hps
    exact .later (hmiss q hmem hq) (ih hmiss hps htakes)

/-- What fits beyond a token before the text differs or reaches over the blank there also fits beyond it before
the other text. -/
theorem fits_further (hp : p ∈ patterns) (hv : v ∈ p.text) (hblank : p ≠ blankPattern)
    (hblock : p ≠ blockPattern) (hline : p = linePattern → z ≠ []) (hc : Text.isBlank c = true)
    (hclose : v = ['/'] → z.head? = some '*' → Closes (c :: r') → Closes r) (hq : q ∈ patterns) (hcalled : q.called = false)
    (hcs : u ++ x = v ++ (z ++ c :: r')) (hu : u ∈ q.text) (hlong : v.length < u.length) :
    ∃ u' x', u' ++ x' = v ++ (z ++ r) ∧ q.Fits u' x' ∧ v.length < u'.length := by
  obtain ⟨y, rfl⟩ : ∃ y, u = v ++ y := by
    rcases List.append_eq_append_iff.1 hcs with ⟨y, rfl, -⟩ | ⟨y, hy, -⟩
    · rw [List.length_append] at hlong
      omega
    · exact ⟨y, hy⟩
  rw [List.append_assoc] at hcs
  rcases List.append_eq_append_iff.1 (List.append_cancel_left hcs) with ⟨z', rfl, -⟩ | ⟨y', rfl, hy'⟩
  · exact ⟨v ++ y, z' ++ r, by simp, fits_of_text hcalled hu, hlong⟩
  cases y' with
  | nil =>
    rw [List.append_nil] at hu hlong
    exact ⟨v ++ z, r, by simp, fits_of_text hcalled hu, hlong⟩
  | cons d y' =>
    obtain ⟨rfl, hr'⟩ := List.cons.inj hy'
    have hmem : c ∈ v ++ (z ++ c :: y') := by simp
    obtain ⟨d, v, rfl⟩ := List.exists_cons_of_ne_nil fun hnil => nil_notMem_text p hp (hnil ▸ hv)
    rcases blank_in_text hq hcalled hu hmem hc with rfl | rfl | rfl | rfl
    · -- a string ends where it ends
      obtain ⟨rest, hrest, -⟩ := mem_string.1 hu
      have hquote : d = '"' := (List.cons.inj hrest).1
      subst hquote
      obtain rfl := eq_string hp hv
      exact absurd (string_whole hv hu) (by simp)
    · -- a run of blanks
      have hd := (mem_charsOf.1 hu).2 d List.mem_cons_self
      exact absurd (eq_blank hp hv (isBlank_of_isSpace hd)) hblank
    · -- a block comment begins with the token only if it is a slash
      obtain ⟨a, ha⟩ := mem_blockComment.1 hu
      obtain ⟨rfl, htail⟩ := List.cons.inj ha
      cases v with
      | nil =>
        cases z with
        | nil =>
          obtain ⟨rfl, -⟩ := List.cons.inj htail
          exact absurd hc (by decide)
        | cons e z =>
          obtain ⟨rfl, hcomment⟩ := List.cons.inj htail
          have hcloses : Closes (z ++ c :: r') := ⟨a, x, by
            rw [hy', ← List.append_assoc]
            exact (congrArg (· ++ x) hcomment).trans (by simp)⟩
          obtain ⟨a', b, hab⟩ := hcloses.behind hc (hclose rfl rfl)
          refine ⟨'/' :: '*' :: (a' ++ ['*', '/']), b, by simp [hab],
            fits_of_text rfl (mem_blockComment.2 ⟨a', rfl⟩), by simp⟩
      | cons e v =>
        rcases eq_comment hp hv with ⟨rfl, -⟩ | ⟨-, rfl⟩
        · exact absurd rfl hblock
        · cases (List.cons.inj htail).1
    · -- so does a line comment, or it is the token
      obtain ⟨a, ha, hbreak⟩ := mem_lineComment.1 hu
      obtain ⟨rfl, htail⟩ := List.cons.inj ha
      cases v with
      | nil =>
        cases z with
        | nil =>
          obtain ⟨rfl, -⟩ := List.cons.inj htail
          exact absurd hc (by decide)
        | cons e z =>
          obtain ⟨rfl, -⟩ := List.cons.inj htail
          refine ⟨_, _, ?_, (takes_line (z ++ r)).fits, by simp⟩
          simp [List.takeWhile_append_dropWhile]
      | cons e v =>
        rcases eq_comment hp hv with ⟨-, rfl⟩ | ⟨rfl, rfl⟩
        · cases (List.cons.inj htail).1
        · obtain ⟨e, z, rfl⟩ := List.exists_cons_of_ne_nil (hline rfl)
          have hcomment := (List.cons.inj htail).2
          refine ⟨'/' :: '/' :: (v ++ [e]), z ++ r, by simp, fits_of_text rfl
            (mem_lineComment.2 ⟨_, rfl, fun d hd => hbreak d ?_⟩), by simp⟩
          rw [← hcomment]
          rcases List.mem_append.1 hd with hd | hd
          · exact List.mem_append_left _ hd
          · exact List.mem_append_right _ (List.mem_append_left _ (List.mem_singleton.1 hd ▸ List.mem_cons_self))

/-- The patterns that are no builtin name of several words ask for nothing behind their texts. -/
theorem called_iff_phrase (hp : p ∈ patterns) : p.called = true ↔ ∃ x ∈ phrases, p = phraseOf x := by
  constructor
  · intro hcalled
    rcases mem_patterns_iff.1 hp with h | rfl | rfl | rfl | rfl | rfl | rfl | ⟨x, hx, rfl⟩
    · exact h
    all_goals cases hcalled
  · rintro ⟨x, -, rfl⟩
    rfl

/-- **A token is read where it was read, if a blank comes before the text behind it differs** and no builtin
name of several words comes about. A blank before the place would go on with the blank there. -/
theorem Scans.respaced (h : Scans unary v (z ++ r) t) (ht : isPhrase t = false) (hblank : t ≠ .blank)
    (hblock : t ≠ .blockComment) (hline : t = .lineComment → z ≠ []) (hc : Text.isBlank c = true)
    (hclose : v = ['/'] → z.head? = some '*' → Closes (c :: r') → Closes r)
    (hmiss : ∀ x ∈ phrases, (phraseOf x).Misses (v ++ (z ++ c :: r'))) :
    Scans unary v (z ++ c :: r') t := by
  have hphrases := h.phrases_miss ht
  obtain ⟨p, hp, hmakes⟩ := h
  have hplain : p.called = false := by
    refine Bool.eq_false_of_not_eq_true fun hcalled => ?_
    obtain ⟨x, hx, rfl⟩ := (called_iff_phrase hp.mem).1 hcalled
    exact hphrases x hx _ _ rfl hp.takes.fits
  have hkind : ∀ {k}, t ≠ k → p.kind = k → k ≠ .identifier → False := fun hk hpk hne =>
    hk ((kind_of_makes hmakes (hpk ▸ hne)).trans hpk)
  have hpblank : p ≠ blankPattern := by
    rintro rfl
    exact hkind hblank rfl (by decide)
  have hpblock : p ≠ blockPattern := by
    rintro rfl
    exact hkind hblock rfl (by decide)
  have hpline : p = linePattern → z ≠ [] := by
    rintro rfl
    exact hline (kind_of_makes hmakes (by decide))
  have hfurther : ∀ q ∈ patterns, q.called = false → ∀ u x, u ++ x = v ++ (z ++ c :: r') → u ∈ q.text →
      v.length < u.length → ∃ u' x', u' ++ x' = v ++ (z ++ r) ∧ q.Fits u' x' ∧ v.length < u'.length :=
    fun q hq hcalled u x hcs hu hlong =>
      fits_further hp.mem hp.takes.fits.text hpblank hpblock hpline hc hclose hq hcalled hcs hu hlong
  -- what fits no further than the token fits there before either text
  have hwithin : ∀ q : Pattern, q.called = false → ∀ u x, u ++ x = v ++ (z ++ c :: r') → u ∈ q.text →
      u.length ≤ v.length → ∃ x', u ++ x' = v ++ (z ++ r) ∧ q.Fits u x' := by
    intro q hcalled u x hcs hu hshort
    rcases List.append_eq_append_iff.1 hcs with ⟨y, rfl, -⟩ | ⟨y, rfl, -⟩
    · exact ⟨y ++ (z ++ r), by rw [List.append_assoc], fits_of_text hcalled hu⟩
    · obtain rfl : y = [] := by
        rw [List.length_append] at hshort
        exact List.length_eq_zero_iff.1 (by omega)
      exact ⟨z ++ r, by rw [List.append_nil], fits_of_text hcalled hu⟩
  have hmisses : ∀ q ∈ patterns, q.Misses (v ++ (z ++ r)) → q.Misses (v ++ (z ++ c :: r')) := by
    intro q hq hno u x hcs hfits
    by_cases hcalled : q.called = true
    · obtain ⟨a, ha, rfl⟩ := (called_iff_phrase hq).1 hcalled
      exact hmiss a ha u x hcs hfits
    · have hcalled := Bool.eq_false_of_not_eq_true hcalled
      rcases Nat.lt_or_ge v.length u.length with hlong | hshort
      · obtain ⟨u', x', hcs', hfits', -⟩ := hfurther q hq hcalled u x hcs.symm hfits.text hlong
        exact hno u' x' hcs'.symm hfits'
      · obtain ⟨x', hcs', hfits'⟩ := hwithin q hcalled u x hcs.symm hfits.text hshort
        exact hno u x' hcs'.symm hfits'
  have hshortest : p.shortest = false := by
    rcases mem_patterns_iff.1 hp.mem with ⟨x, -, rfl⟩ | rfl | rfl | rfl | rfl | rfl | rfl | ⟨x, hx, rfl⟩
    case inr.inr.inr.inr.inr.inl => exact absurd rfl hpblock
    all_goals rfl
  have htakes : p.Takes v (z ++ c :: r') := by
    refine ⟨fits_of_text hplain hp.takes.fits.text, fun u x hcs hfits => ?_⟩
    rw [hshortest, if_neg Bool.false_ne_true]
    by_contra hlong
    obtain ⟨u', x', hcs', hfits', hlong'⟩ :=
      hfurther p hp.mem hplain u x hcs hfits.text (Nat.lt_of_not_le hlong)
    have hbest := hp.takes.best u' x' hcs' hfits'
    rw [hshortest, if_neg Bool.false_ne_true] at hbest
    omega
  exact ⟨p, hp.behind hmisses (fun _ hq => hq) htakes, hmakes⟩

end Lexer

end Criterion

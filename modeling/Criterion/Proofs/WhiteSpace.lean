import Criterion.Proofs.Respelling

/-!
# White space

White space between tokens has no meaning, and neither has its kind and amount inside a builtin name of several words:
the name is looked up with one space between its words.

* `normalizeBlanks_reblanked`: other white space in a name leaves the key under which it is looked up.
* `evaluate_goesOver`: sources whose tokens go over into each other have the same value, but for the places of tests.
* `tokens_reblanked`: with other white space inside a name, a source has the same tokens, moved behind the name.
* `white_space_insignificant`: **other white space between tokens leaves the tree, and inside a name the value.**
-/

namespace Criterion

open Lexer

/-! ## Names of several words -/

section Names

variable {v v' : List Char}

theorem words_blanks {b : List Char} (hb : ∀ c ∈ b, Text.isBlank c = true) (v : List Char) :
    Text.words.go [] (b ++ v) = Text.words.go [] v := by
  induction b with
  | nil => rfl
  | cons c b ih =>
    obtain ⟨hc, hb⟩ := List.forall_mem_cons.1 hb
    rw [List.cons_append, Text.words.go, if_pos hc, List.isEmpty_nil, if_pos rfl, ih hb]

/-- A run of white space ends a word, whatever it consists of. -/
theorem words_gap {b : List Char} (hne : b ≠ []) (hb : ∀ c ∈ b, Text.isBlank c = true) (word v : List Char) :
    Text.words.go word (b ++ v) =
      if word.isEmpty then Text.words.go [] v else word.reverse :: Text.words.go [] v := by
  obtain ⟨c, b, rfl⟩ := List.exists_cons_of_ne_nil hne
  obtain ⟨hc, hb⟩ := List.forall_mem_cons.1 hb
  rw [List.cons_append, Text.words.go, if_pos hc, words_blanks hb]

theorem words_reblanked (h : Reblanked v v') (word : List Char) :
    Text.words.go word v' = Text.words.go word v := by
  induction h generalizing word with
  | nil => rfl
  | char hc _ ih =>
    rw [Text.words.go, Text.words.go]
    simp only [hc, Bool.false_eq_true, if_false]
    exact ih _
  | blanks hb hb' hall hall' _ ih => rw [words_gap hb hall, words_gap hb' hall', ih]

/-- Other white space in a name leaves the key under which it is looked up. -/
theorem normalizeBlanks_reblanked (h : Reblanked v v') :
    Text.normalizeBlanks (String.ofList v') = Text.normalizeBlanks (String.ofList v) := by
  unfold Text.normalizeBlanks Text.words
  rw [String.toList_ofList, String.toList_ofList, words_reblanked h]

theorem phrases_longer : ∀ x ∈ phrases, x.2.1.toList ≠ [] ∧ x.2.2 ≠ [] := by decide

/-- With other white space between its words, a builtin name of several words is read as well. -/
theorem Lexer.Scans.reblanked_name {unary : Bool} {t : Terminal} {w : List Char} (h : Scans unary v w t)
    (ht : isPhrase t = true) (hv : Reblanked v v') : Scans unary v' w t := by
  obtain ⟨a, ha, rfl, hfits⟩ := phrase_of_scans h ht
  have hcalled : (phraseOf a).Fits v ['('] := ⟨hfits.text, fun _ => called_iff.1 rfl⟩
  obtain ⟨u, x, hcs, hfits', hx⟩ := phrase_reblanked ha (hv.symm.append (.refl ['('])) hcalled
  obtain ⟨x, rfl, hnil⟩ := hx.of_cons (by decide)
  obtain rfl := hnil.of_nil
  obtain rfl := List.append_cancel_right hcs
  exact scans_phrase ha ⟨hfits'.text, hfits.ahead⟩

/-- Other white space in a builtin name of several words begins behind its first word. -/
theorem Lexer.Scans.reblanked_split {unary : Bool} {t : Terminal} {w : List Char} (h : Scans unary v w t)
    (ht : isPhrase t = true) (hv : Reblanked v v') : ∃ f g c g', v = f ++ g ∧ v' = f ++ c :: g' ∧ f ≠ [] ∧
      Text.isBlank c = true ∧ Reblanked g (c :: g') := by
  obtain ⟨a, ha, rfl, hfits⟩ := phrase_of_scans h ht
  obtain ⟨g, rfl, hg⟩ := mem_spelled_mul.1 hfits.text
  obtain ⟨g', rfl, hgg'⟩ := hv.symm.of_append (phrases_solid a ha).1
  have hblank : g'.head?.any Text.isBlank = true := by
    rw [hgg'.head_isBlank]
    obtain ⟨word, more, hmore⟩ := List.exists_cons_of_ne_nil (phrases_longer a ha).2
    have hafter := (afterWords?_eq_some (phrases_firm a ha)).2 ⟨g, (List.append_nil g).symm, hg⟩
    rw [hmore, afterWords?] at hafter
    split at hafter
    · assumption
    · cases hafter
  cases g' with
  | nil => cases hblank
  | cons c g' => exact ⟨_, g, c, g', rfl, rfl, (phrases_longer a ha).1, hblank, hgg'.symm⟩

end Names

/-! ## Values -/

section Values

variable {source source' : String} {place : ℕ ↪ ℕ} {ls ls' : List Lexeme} {t t' : Tree}

/-- All that an expression reads is known from some keys. -/
theorem exists_within (e : Expr) : ∃ keys, ∀ x ∈ e.subterms, x.Within keys := by
  refine ⟨Scope.inputKey :: e.names.flatMap fun n => [n, (Scope.segments n).1], ?_⟩
  refine Expr.within_of_names (fun n hn => ?_) fun _ => List.mem_cons_self
  constructor <;> refine List.mem_cons_of_mem _ (List.mem_flatMap.2 ⟨n, hn, ?_⟩) <;> simp

/-- **Expressions that differ in places and in the texts of calls only** have the same value, but for the places. -/
theorem eval_alike {e e' : Expr} (h : e'.unquoted = e.unquoted.moved place) (he : e.Ranked 0) (he' : e'.Ranked 0)
    (registry bindings : Fields) :
    EndsAlike (fun v v' => v' = v.moved place) (e.eval registry (.ofFields bindings)).outcome
      (e'.eval (registry.moved place) (.ofFields (bindings.moved place))).outcome := by
  obtain ⟨keys, hkeys⟩ := exists_within e.unquoted
  have hmirrors : Scope.Mirrors place keys (.ofFields bindings) (.ofFields (bindings.moved place)) := by
    intro k _
    rw [get_ofFields, get_ofFields, Fields.get_moved]
  have hmoved := Expr.eval_moved registry e.unquoted hkeys _ _ hmirrors
  have hends := (@Expr.eval_unquoted registry e 0 (Nat.zero_le 2) he (.ofFields bindings)).ends
  have hends' := (@Expr.eval_unquoted (registry.moved place) e' 0 (Nat.zero_le 2) he'
    (.ofFields (bindings.moved place))).ends
  rw [h, hmoved] at hends'
  exact hends.map_trans hends'

/-- The one element of a list with one element does not depend on places. -/
theorem single_moved (v : Value) : (v.moved place).single = v.single.moved place := by
  cases v with
  | list items =>
    rw [Value.moved_list]
    match items with
    | [] => exact (Value.moved_list []).symm
    | [_] => rfl
    | v :: w :: rest => exact (Value.moved_list (v :: w :: rest)).symm
  | _ => rfl

theorem Lexeme.GoesOver.tooLong_iff {l l' : Lexeme} (h : l.GoesOver place l') :
    l'.token.TooLong ↔ l.token.TooLong := by
  have hkind := h.kind
  have htext := h.text
  unfold Token.TooLong Lexeme.token
  dsimp only
  rw [hkind]
  refine and_congr_right fun hnumber => ?_
  rw [htext (by rw [hnumber]; rfl)]

theorem exists_tooLong_of_goesOver (h : List.Forall₂ (Lexeme.GoesOver place) ls ls') :
    (∃ l ∈ ls', l.token.TooLong) ↔ ∃ l ∈ ls, l.token.TooLong := by
  induction h with
  | nil => rfl
  | cons hl _ ih => simp only [List.mem_cons, exists_eq_or_imp, hl.tooLong_iff, ih]

/-- Whether a source has an integer with too many digits. -/
theorem exists_tooLong_iff {unary : Bool} (h : Tokens unary 0 source.toList ls) (ht : parse unary source = .ok t) :
    (∃ k ∈ t.leaves, k.TooLong) ↔ ∃ l ∈ ls, l.token.TooLong := by
  obtain ⟨ls', h', htells⟩ := tells_of_parse ht
  obtain rfl : ls' = ls := congrArg Lexed.lexemes ((lex_eq_iff.2 h').symm.trans (lex_eq_iff.2 h))
  have hnamed : ∀ {k : Token}, k.TooLong → k.kind.isNamed = true := by
    rintro k ⟨hkind, -⟩
    rw [hkind]
    rfl
  have hleaves := htells.leaves_named
  constructor
  · rintro ⟨k, hk, hlong⟩
    have hmem : k ∈ t.leaves.filter (·.kind.isNamed) := List.mem_filter.2 ⟨hk, hnamed hlong⟩
    rw [hleaves] at hmem
    obtain ⟨l, hl, rfl⟩ := List.mem_map.1 (List.mem_filter.1 hmem).1
    exact ⟨l, hl, hlong⟩
  · rintro ⟨l, hl, hlong⟩
    have hmem : l.token ∈ (ls'.map (·.token)).filter (·.kind.isNamed) :=
      List.mem_filter.2 ⟨List.mem_map_of_mem hl, hnamed hlong⟩
    rw [← hleaves] at hmem
    exact ⟨_, (List.mem_filter.1 hmem).1, hlong⟩

/-- The outcome of a source whose tree is built. -/
theorem outcome_of_build {e : Expr} (ht : parse false source = .ok t)
    (hbuild : (t.build source).outcome = .ok (some (.expr e))) (registry bindings : Fields) :
    (evaluate ⟨registry, 0⟩ source bindings).outcome =
      (e.eval registry (.ofFields bindings)).outcome.map Value.single := by
  rw [evaluate_of_build ht hbuild]
  show (do return (← e.eval registry (.ofFields bindings)).single : Eval Value).outcome = _
  rw [Run.bind_outcome]
  cases (e.eval registry (.ofFields bindings)).outcome <;> rfl

/-- **Sources whose tokens go over into each other have the same value**, but for the places of tests, and fail
alike. -/
theorem evaluate_goesOver (h : Tokens false 0 source.toList ls) (h' : Tokens false 0 source'.toList ls')
    (hover : List.Forall₂ (Lexeme.GoesOver place) ls ls') (ht : parse false source = .ok t)
    (ht' : parse false source' = .ok t') (registry bindings : Fields) :
    EndsAlike (fun v v' => v' = v.moved place) (evaluate ⟨registry, 0⟩ source bindings).outcome
      (evaluate ⟨registry.moved place, 0⟩ source' (bindings.moved place)).outcome := by
  have hlong := exists_tooLong_of_goesOver hover
  have hfails := build_error_of_parse ht
  have hfails' := build_error_of_parse ht'
  rw [exists_tooLong_iff h ht] at hfails
  rw [exists_tooLong_iff h' ht'] at hfails'
  by_cases htoo : ∃ l ∈ ls, l.token.TooLong
  · rw [evaluate_of_error ht (hfails htoo), evaluate_of_error ht' (hfails' (hlong.2 htoo))]
    exact .error rfl
  · obtain ⟨a, hbuild, ⟨es, rfl⟩, -⟩ := build_ok_of_parse ht fun k hk hk' =>
      htoo ((exists_tooLong_iff h ht).1 ⟨k, hk, hk'⟩)
    obtain ⟨a', hbuild', ⟨es', rfl⟩, -⟩ := build_ok_of_parse ht' fun k hk hk' =>
      htoo (hlong.1 ((exists_tooLong_iff h' ht').1 ⟨k, hk, hk'⟩))
    have hmatches := matches_of_goesOver h h' hover ht ht' (artifacts_of_build hbuild) (artifacts_of_build hbuild')
    have hends := eval_alike (Artifact.expr.inj hmatches) (ranked_of_parse ht hbuild) (ranked_of_parse ht' hbuild')
      registry bindings
    rw [outcome_of_build ht hbuild, outcome_of_build ht' hbuild']
    exact hends.map fun v v' hv => hv ▸ single_moved v

end Values

/-! ## Places -/

section Places

variable {unary : Bool} {position : ℕ} {before v v' after : List Char} {l : Lexeme} {ls : List Lexeme}

/-- Places up to `n` stay where they are, those from `stop` to `last` are moved to `stop'` and on, and the other ones
far behind all of them. -/
def movePlace (n stop stop' last m : ℕ) : ℕ :=
  if m ≤ n then m else if stop ≤ m ∧ m ≤ last then m - stop + stop' else m + last + stop'

theorem movePlace_injective {n stop stop' : ℕ} (h : n < stop') (last : ℕ) :
    Function.Injective (movePlace n stop stop' last) := by
  intro m m' hm
  unfold movePlace at hm
  split_ifs at hm <;> omega

/-- The first token of a text, if it stands at its head. -/
theorem Tokens.head {w : List Char} (h : Tokens unary position (v ++ w) (l :: ls)) (hstart : l.start = position)
    (htext : l.text = String.ofList v) (hne : v ≠ []) :
    Scans unary v w l.kind ∧ l.kind.isTrivia = false ∧ Tokens unary (position + v.length) w ls ∧
      l = ⟨l.kind, String.ofList v, position, position + v.length⟩ := by
  obtain ⟨u, x, t, hsplit, hscan⟩ := exists_scans_of_tokens h (by simp [hne])
  rw [hsplit, tokens_append_iff hscan] at h
  split at h
  · have hle := (h.placed l List.mem_cons_self).1
    have hpos := List.length_pos_iff.2 hscan.ne_nil
    omega
  · rename_i ht
    obtain ⟨more, hl, hmore⟩ := h
    obtain ⟨rfl, rfl⟩ := List.cons.inj hl
    obtain rfl : u = v := String.ofList_injective htext
    obtain rfl := List.append_cancel_left hsplit
    exact ⟨hscan, Bool.eq_false_of_not_eq_true ht, hmore, rfl⟩

/-- What stands in front of a name keeps its tokens if the white space in the name is another one. -/
theorem Leading.reblanked_name {t : Terminal} (h : Leading unary (v ++ after) position before ls)
    (hscan : Scans unary v after t) (ht : isPhrase t = true) (hv : Reblanked v v') :
    Leading unary (v' ++ after) position before ls := by
  obtain ⟨f, g, c, g', rfl, rfl, hf, hc, hg⟩ := hscan.reblanked_split ht hv
  rw [List.append_assoc] at h ⊢
  exact h.reblanked hf hc (hg.append (.refl after))

/-- **With other white space inside a name, a source has the same tokens**, moved behind the name. -/
theorem tokens_reblanked (h : Tokens unary 0 (before ++ (v ++ after)) ls) (hl : l ∈ ls)
    (hstart : l.start = before.length) (htext : l.text = String.ofList v) (hkind : isPhrase l.kind = true)
    (hv : Reblanked v v') : ∃ ls', ∃ place : ℕ ↪ ℕ, Tokens unary 0 (before ++ (v' ++ after)) ls' ∧
      List.Forall₂ (Lexeme.GoesOver place) ls ls' := by
  have hne : v ≠ [] := by
    obtain ⟨c, rest, hcons, -⟩ := h.firm l hl
    rintro rfl
    rw [htext] at hcons
    cases hcons
  have horder := h.inOrder
  obtain ⟨ls₁, ls₂, hleading, rfl, htokens⟩ := h.leading rfl hl (by rw [hstart, Nat.zero_add])
  obtain ⟨hscan, htrivia, hafter, hl⟩ := htokens.head (by rw [hstart, Nat.zero_add]) htext hne
  have hname := hscan.reblanked_name hkind hv
  obtain ⟨ls₂', hafter', hpairs⟩ := hafter.elsewhere (0 + before.length + v'.length)
  have htokens' := (hleading.reblanked_name hscan hkind hv).tokens_iff.2 ⟨_, rfl, .token hname htrivia hafter'⟩
  have hlt : before.length < before.length + v'.length :=
    Nat.lt_add_of_pos_right (List.length_pos_iff.2 hname.ne_nil)
  have hapart := List.pairwise_append.1 horder.apart
  have hfront : ∀ k ∈ ls₁, k.start ≤ before.length := by
    intro k hk
    have hproper := (horder.proper k (List.mem_append_left _ hk)).1
    have hbefore := hapart.2.2 k hk l List.mem_cons_self
    omega
  have hbehind : ∀ k ∈ ls₂, before.length + v.length ≤ k.start ∧ k.start ≤ (before ++ (v ++ after)).length := by
    intro k hk
    have hproper := horder.proper k (List.mem_append_right _ (List.mem_cons_of_mem _ hk))
    have hplaced := (hafter.placed k hk).1
    omega
  have hplace := @movePlace_injective before.length (before.length + v.length) _ hlt (before ++ (v ++ after)).length
  refine ⟨_, ⟨_, hplace⟩, htokens',
    List.rel_append (List.forall₂_same.2 fun k hk => ⟨rfl, (if_pos (hfront k hk)).symm, fun _ => rfl, rfl⟩)
      (.cons ?_ ?_)⟩
  · rw [hl]
    refine ⟨rfl, (if_pos (Nat.le_of_eq (Nat.zero_add _))).symm, fun hno => ?_, normalizeBlanks_reblanked hv⟩
    rw [hkind] at hno
    cases hno
  · refine ((List.forall₂_and_left _ _).2 ⟨hbehind, hpairs⟩).imp ?_
    rintro k k' ⟨⟨hstop, hlast⟩, hface, hmoved⟩
    obtain ⟨hkind, htext⟩ := Prod.mk.inj hface
    refine ⟨hkind, ?_, fun _ => htext, congrArg _ htext⟩
    show k'.start = movePlace _ _ _ _ k.start
    unfold movePlace
    rw [if_neg (by have := List.length_pos_iff.2 hne; omega), if_pos ⟨hstop, hlast⟩]
    omega

end Places

/-! ## The results -/

variable {source source' : String} {before v v' after : List Char} {ls : List Lexeme} {l : Lexeme} {t : Tree}

/-- Other gaps between the tokens of a source, none of them empty, leave its tree. -/
theorem parse_respaced {unary : Bool} {gaps gaps' : List (List Char)} (ht : parse unary source = .ok t)
    (h : Tokens unary 0 source.toList ls) (hsource : source.toList = interleave gaps (ls.map (·.text.toList)))
    (hlength : gaps.length = ls.length + 1) (hgaps : ∀ gap ∈ gaps, IsGap gap)
    (hlength' : gaps'.length = ls.length + 1) (hgaps' : ∀ gap ∈ gaps', gap ≠ [] ∧ IsGap gap)
    (hsource' : source'.toList = interleave gaps' (ls.map (·.text.toList))) :
    ∃ t', parse unary source' = .ok t' ∧ t'.unplaced = t.unplaced := by
  have htokens := h
  rw [hsource] at htokens
  obtain ⟨ls', h', hfaces⟩ := tokens_respaced htokens hlength hgaps hlength' hgaps'
  rw [← hsource'] at h'
  have hsame := parse_unplaced h h' hfaces
  rw [ht] at hsame
  cases ht' : parse unary source' with
  | error e =>
    rw [ht'] at hsame
    cases hsame
  | ok t' =>
    rw [ht'] at hsame
    exact ⟨t', rfl, Option.some.inj hsame⟩

/-- Other white space inside a builtin name of several words leaves the value. -/
theorem evaluate_reblanked (ht : parse false source = .ok t) (h : Tokens false 0 source.toList ls) (hl : l ∈ ls)
    (hkind : isPhrase l.kind = true) (hsource : source.toList = before ++ (l.text.toList ++ after))
    (hstart : l.start = before.length) (hv : Reblanked l.text.toList v')
    (hsource' : source'.toList = before ++ (v' ++ after)) :
    ∃ t', parse false source' = .ok t' ∧ ∃ place : ℕ ↪ ℕ, ∀ registry bindings,
      EndsAlike (fun v v' => v' = v.moved place) (evaluate ⟨registry, 0⟩ source bindings).outcome
        (evaluate ⟨registry.moved place, 0⟩ source' (bindings.moved place)).outcome := by
  have htokens := h
  rw [hsource] at htokens
  obtain ⟨ls', place, h', hover⟩ := tokens_reblanked htokens hl hstart String.ofList_toList.symm hkind hv
  rw [← hsource'] at h'
  have hparse := parse_of_tokens h
  have hparse' := parse_of_tokens h'
  rw [ht] at hparse
  obtain ⟨u, hu, -⟩ := Option.map_eq_some_iff.1 hparse.symm
  rw [kinds_of_goesOver hover, hu] at hparse'
  cases ht' : parse false source' with
  | error e =>
    rw [ht'] at hparse'
    cases hparse'
  | ok t' => exact ⟨t', rfl, place, evaluate_goesOver h h' hover ht ht'⟩

/-- **White space has no meaning.** A source that is its tokens with gaps between them, so one without comments, has
the same tree with other gaps, none of them empty: the same rules, and the same kinds and texts of tokens. And with
other white space inside a builtin name of several words it has the same value, up to the places that tell tests
apart. -/
theorem white_space_insignificant :
    (∀ (unary : Bool) (source source' : String) (t : Tree) (ls : List Lexeme) (gaps gaps' : List (List Char)),
      parse unary source = .ok t → Tokens unary 0 source.toList ls →
      source.toList = interleave gaps (ls.map (·.text.toList)) → gaps.length = ls.length + 1 →
      (∀ gap ∈ gaps, IsGap gap) → gaps'.length = ls.length + 1 → (∀ gap ∈ gaps', gap ≠ [] ∧ IsGap gap) →
      source'.toList = interleave gaps' (ls.map (·.text.toList)) →
        ∃ t', parse unary source' = .ok t' ∧ t'.unplaced = t.unplaced) ∧
    ∀ (source source' : String) (t : Tree) (ls : List Lexeme) (l : Lexeme) (before name' after : List Char),
      parse false source = .ok t → Tokens false 0 source.toList ls → l ∈ ls → isPhrase l.kind = true →
      source.toList = before ++ (l.text.toList ++ after) → l.start = before.length →
      Reblanked l.text.toList name' → source'.toList = before ++ (name' ++ after) →
        ∃ t', parse false source' = .ok t' ∧ ∃ place : ℕ ↪ ℕ, ∀ registry bindings : Fields,
          EndsAlike (fun v v' => v' = v.moved place) (evaluate ⟨registry, 0⟩ source bindings).outcome
            (evaluate ⟨registry.moved place, 0⟩ source' (bindings.moved place)).outcome :=
  ⟨fun _ _ _ _ _ _ _ ht h hsource hlength hgaps hlength' hgaps' hsource' =>
      parse_respaced ht h hsource hlength hgaps hlength' hgaps' hsource',
    fun _ _ _ _ _ _ _ _ ht h hl hkind hsource hstart hv hsource' =>
      evaluate_reblanked ht h hl hkind hsource hstart hv hsource'⟩

theorem white_space_insignificant_in_call :
    (∃ t t', parse false "string length(x)" = .ok t ∧ parse false " string length\t( x\n) " = .ok t' ∧
      t'.unplaced = t.unplaced) ∧
    ∃ place : ℕ ↪ ℕ, ∀ registry bindings : Fields, EndsAlike (fun v v' => v' = v.moved place)
      (evaluate ⟨registry, 0⟩ "string length(x)" bindings).outcome
      (evaluate ⟨registry.moved place, 0⟩ "string \t length(x)" (bindings.moved place)).outcome := by
  have htokens : Tokens false 0 ("string length".toList ++ ("(".toList ++ ("x".toList ++ (")".toList ++ [])))) _ :=
    .token (t := .specialName) (scans_of_scan (by decide)) rfl
      (.token (t := .leftParen) (scans_of_scan (by decide)) rfl (.token (t := .identifier) (scans_of_scan (by decide)) rfl
        (.token (t := .rightParen) (scans_of_scan (by decide)) rfl .done)))
  obtain ⟨t, ht⟩ : ∃ t, parse false "string length(x)" = .ok t := by
    have hread : (parse false "string length(x)").toOption.isSome = true := by decide +kernel
    cases hparse : parse false "string length(x)" with
    | error e =>
      rw [hparse] at hread
      cases hread
    | ok t => exact ⟨t, rfl⟩
  have hblank : ∀ c ∈ [' '], Text.isBlank c = true := List.all_eq_true.1 rfl
  have hblank' : ∀ c ∈ [' ', '\t', ' '], Text.isBlank c = true := List.all_eq_true.1 rfl
  have hname : Reblanked "string length".toList "string \t length".toList :=
    (Reblanked.refl "string".toList).append (.blanks (List.cons_ne_nil _ _) (List.cons_ne_nil _ _) hblank hblank'
      (.refl "length".toList))
  obtain ⟨t', ht', hsame⟩ := white_space_insignificant.1 false "string length(x)" " string length\t( x\n) " t _
    [[], [], [], [], []] [[' '], ['\t'], [' '], ['\n'], [' ']] ht htokens rfl rfl (by decide) rfl (by decide) rfl
  obtain ⟨-, -, hvalue⟩ := white_space_insignificant.2 "string length(x)" "string \t length(x)" t _ _ []
    "string \t length".toList "(x)".toList ht htokens List.mem_cons_self rfl rfl rfl hname rfl
  exact ⟨⟨t, t', ht, ht', hsame⟩, hvalue⟩

end Criterion

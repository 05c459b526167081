import Criterion.Proofs.Acceptance

/-!
# Where a source stops to make sense

A source without a tree fails at a place. The tokens before that place begin a sentence of the grammar,
and what comes there cannot go on with it.

* `TokensUpTo`: the tokens of a text up to the place where nothing can be scanned, if there is one.
* `Offence`: the tokens before a place begin a sentence that what comes there cannot go on with.
* `parse_offends`: a source without a tree fails at its offence.
-/

namespace Criterion

open Reader (Opens)

variable {unary : Bool} {position fuel p : ℕ} {cs : List Char} {ls : List Lexeme} {stop : Option ℕ}
  {source : String}

/-! ## The tokens of any text -/

/-- The text `cs`, which starts at `position`, has the tokens `ls`, up to the place where nothing can be
scanned, if there is one. -/
inductive TokensUpTo (unary : Bool) : ℕ → List Char → List Lexeme → Option ℕ → Prop where
  | done {position : ℕ} : TokensUpTo unary position [] [] none
  | stuck {position : ℕ} {cs : List Char} :
    cs ≠ [] → (∀ v w t, cs = v ++ w → ¬ Lexer.Scans unary v w t) →
      TokensUpTo unary position cs [] (some position)
  | trivia {position : ℕ} {v w : List Char} {t : Terminal} {ls : List Lexeme} {stop : Option ℕ} :
    Lexer.Scans unary v w t → t.isTrivia = true → TokensUpTo unary (position + v.length) w ls stop →
      TokensUpTo unary position (v ++ w) ls stop
  | token {position : ℕ} {v w : List Char} {t : Terminal} {ls : List Lexeme} {stop : Option ℕ} :
    Lexer.Scans unary v w t → t.isTrivia = false → TokensUpTo unary (position + v.length) w ls stop →
      TokensUpTo unary position (v ++ w)
        (⟨t, String.ofList v, position, position + v.length⟩ :: ls) stop

/-- The lexer finds the tokens up to there. -/
theorem lexFrom_upTo (hfuel : cs.length ≤ fuel) : TokensUpTo unary position cs
    (lexFrom unary position fuel cs).lexemes (lexFrom unary position fuel cs).stop := by
  induction fuel generalizing position cs with
  | zero =>
    obtain rfl := List.length_eq_zero_iff.1 (Nat.le_zero.1 hfuel)
    exact .done
  | succ fuel ih =>
    cases cs with
    | nil => exact .done
    | cons c cs =>
      rw [lexFrom]
      · cases hscan : Lexer.scan? unary (c :: cs) with
        | none =>
          refine .stuck (List.cons_ne_nil c cs) fun v w t hcs hs => ?_
          rw [Lexer.scan_eq_some_iff.2 ⟨v, w, hcs, rfl, hs⟩] at hscan
          cases hscan
        | some found =>
          obtain ⟨t, n⟩ := found
          obtain ⟨v, w, hcs, rfl, hs⟩ := Lexer.scan_eq_some_iff.1 hscan
          have hpos := List.length_pos_iff.2 hs.ne_nil
          have hle : w.length ≤ fuel := by
            have hlength := congrArg List.length hcs
            rw [List.length_append] at hlength
            omega
          rw [hcs]
          simp only [List.drop_left, List.take_left]
          by_cases ht : t.isTrivia = true
          · rw [if_pos ht]
            exact .trivia hs ht (ih hle)
          · rw [if_neg ht]
            exact .token hs (Bool.eq_false_of_not_eq_true ht) (ih hle)
      · simp

theorem lex_upTo (unary : Bool) (source : String) :
    TokensUpTo unary 0 source.toList (lex unary source).lexemes (lex unary source).stop :=
  lexFrom_upTo (le_of_eq String.length_toList)

namespace TokensUpTo

/-- The tokens lie within the text. -/
theorem within (h : TokensUpTo unary position cs ls stop) :
    ∀ l ∈ ls, position ≤ l.start ∧ l.start < l.stop ∧ l.stop ≤ position + cs.length := by
  induction h with
  | done => exact fun _ hl => absurd hl List.not_mem_nil
  | stuck => exact fun _ hl => absurd hl List.not_mem_nil
  | trivia _ _ _ ih =>
    intro l hl
    obtain ⟨hstart, hlt, hstop⟩ := ih l hl
    rw [List.length_append]
    omega
  | token hscan _ _ ih =>
    have hpos := List.length_pos_iff.2 hscan.ne_nil
    intro l hl
    rw [List.length_append]
    rcases List.mem_cons.1 hl with rfl | hl
    · dsimp only
      omega
    · obtain ⟨hstart, hlt, hstop⟩ := ih l hl
      omega

/-- The tokens come one behind the other. -/
theorem pairwise (h : TokensUpTo unary position cs ls stop) :
    ls.Pairwise fun l k => l.stop ≤ k.start := by
  induction h with
  | done => exact .nil
  | stuck => exact .nil
  | trivia _ _ _ ih => exact ih
  | token _ _ hrest ih => exact .cons (fun k hk => (hrest.within k hk).1) ih

/-- The place where nothing can be scanned lies behind all tokens. -/
theorem stuck_within (h : TokensUpTo unary position cs ls (some p)) :
    position ≤ p ∧ p < position + cs.length ∧ ∀ l ∈ ls, l.stop ≤ p := by
  generalize hstop : some p = stop at h
  induction h with
  | done => cases hstop
  | stuck hcs =>
    cases hstop
    have hpos := List.length_pos_iff.2 hcs
    exact ⟨le_rfl, by omega, fun _ hl => absurd hl List.not_mem_nil⟩
  | trivia _ _ _ ih =>
    obtain ⟨hle, hlt, hall⟩ := ih hstop
    rw [List.length_append]
    exact ⟨by omega, by omega, hall⟩
  | token _ _ _ ih =>
    obtain ⟨hle, hlt, hall⟩ := ih hstop
    rw [List.length_append]
    exact ⟨by omega, by omega, List.forall_mem_cons.2 ⟨hle, hall⟩⟩

/-- Nothing can be scanned at that place. -/
theorem stuck_at (h : TokensUpTo unary position cs ls (some p)) :
    ∀ v w t, cs.drop (p - position) = v ++ w → ¬ Lexer.Scans unary v w t := by
  -- what is scanned before the place is dropped
  have hdrop : ∀ {position : ℕ} {u w : List Char} {ls : List Lexeme},
      TokensUpTo unary (position + u.length) w ls (some p) →
        (u ++ w).drop (p - position) = w.drop (p - (position + u.length)) := by
    intro position u w ls h
    have hle := h.stuck_within.1
    rw [List.drop_append, List.drop_eq_nil_of_le (by omega), List.nil_append, Nat.sub_sub]
  generalize hstop : some p = stop at h
  induction h with
  | done => cases hstop
  | stuck _ hstuck =>
    cases hstop
    rwa [Nat.sub_self]
  | trivia _ _ hrest ih =>
    subst hstop
    rw [hdrop hrest]
    exact ih rfl
  | token _ _ hrest ih =>
    subst hstop
    rw [hdrop hrest]
    exact ih rfl

theorem ordered (h : TokensUpTo unary 0 cs ls stop) : Cursor.Ordered ⟨0, ls⟩ := by
  refine List.pairwise_cons.2 ⟨fun stop hstop => ?_, List.pairwise_map.2 ?_⟩
  · obtain ⟨l, hl, rfl⟩ := List.mem_map.1 hstop
    exact Nat.zero_lt_of_lt (h.within l hl).2.1
  · exact h.pairwise.imp_of_mem fun hl hk hle => hle.trans_lt (h.within _ hk).2.1

end TokensUpTo

/-! ## The first offence -/

/-- The tokens up to a place begin a sentence, and it is the first place where they cannot go on: the
source is at its end there without being a sentence, or nothing can be scanned there, or the token that
begins there goes on with no sentence. -/
def Offence (unary : Bool) (source : String) (start : ℕ) : Prop :=
  ∃ ls stop, TokensUpTo unary 0 source.toList ls stop ∧
    Opens (startRule unary).language (ls.filter (·.stop ≤ start)) ∧
      (start = source.length ∧ stop = none ∧ Opens (startRule unary).language ls ∧
          ls ∉ (startRule unary).language ∨
        (∀ l ∈ ls, l.start ≠ start) ∧
          (∀ v w t, source.toList.drop start = v ++ w → ¬ Lexer.Scans unary v w t) ∧
            start < source.length ∨
        ∃ l ∈ ls, l.start = start ∧
          ¬ Opens (startRule unary).language (ls.filter (·.stop ≤ start) ++ [l]))

/-- The furthest place is behind tokens that begin a sentence. -/
theorem readings_reached (unary : Bool) (ls : List Lexeme) :
    ∃ v d, Cursor.Passes ⟨0, ls⟩ v d ∧ (readings unary ls).reached = d.stop ∧
      Opens (startRule unary).language v := by
  obtain ⟨v, d, hv, hd, w, t, ht⟩ := (yields_source unary (ls.length + 1) ⟨0, ls⟩).reach
  exact ⟨v, d, hv, hd, w, _, ht⟩

/-- Tokens that begin a sentence are gone through. -/
theorem le_readings_reached {v : List Lexeme} {d : Cursor} (ho : Cursor.Ordered ⟨0, ls⟩)
    (hv : Cursor.Passes ⟨0, ls⟩ v d) (hopens : Opens (startRule unary).language v) :
    d.stop ≤ (readings unary ls).reached := by
  refine (finds_source unary (ls.length + 1)).gone _ v d ho hv ?_ hopens
  have hrest : ls = v ++ d.rest := hv.rest
  rw [hrest, List.length_append]
  omega

/-- The tokens up to a place between two of them. -/
theorem filter_stop_le {v rest : List Lexeme} {start : ℕ} (hv : ∀ l ∈ v, l.stop ≤ start)
    (hrest : ∀ l ∈ rest, start < l.stop) : (v ++ rest).filter (·.stop ≤ start) = v := by
  rw [List.filter_append, List.filter_eq_self.2 fun l hl => decide_eq_true (hv l hl),
    List.filter_eq_nil_iff.2 fun l hl h => Nat.not_le_of_lt (hrest l hl) (of_decide_eq_true h),
    List.append_nil]

/-- The tokens before the furthest place end there at the latest, and the others begin there at the
earliest. -/
theorem TokensUpTo.divided {v : List Lexeme} {d : Cursor} (h : TokensUpTo unary 0 cs ls stop)
    (hv : Cursor.Passes ⟨0, ls⟩ v d) : (∀ l ∈ v, l.stop ≤ d.stop) ∧ ∀ l ∈ d.rest, d.stop ≤ l.start := by
  have hls : ls = v ++ d.rest := hv.rest
  have hpairwise := h.pairwise
  rw [hls, List.pairwise_append] at hpairwise
  obtain ⟨hfirst, -, hacross⟩ := hpairwise
  cases v using List.reverseRecOn with
  | nil => exact ⟨fun _ hl => absurd hl List.not_mem_nil, fun l _ => hv.stop.trans_le (Nat.zero_le _)⟩
  | append_singleton v k =>
    have hstop : d.stop = k.stop := by simp [hv.stop, Cursor.stopAfter]
    rw [hstop]
    refine ⟨fun l hl => ?_, fun l hl => hacross k (by simp) l hl⟩
    rcases List.mem_append.1 hl with hl | hl
    · have hk : k ∈ ls := by simp [hls]
      have hlt := (h.within k hk).2.1
      exact ((List.pairwise_append.1 hfirst).2.2 l hl k (List.mem_singleton_self k)).trans hlt.le
    · rw [List.mem_singleton.1 hl]

/-- The error is placed at the token behind the furthest place, or where the tokens end. -/
theorem errorPlace_eq {x : Readings Tree} {lexed : Lexed} {v : List Lexeme} {d : Cursor}
    (h : TokensUpTo unary 0 cs lexed.lexemes lexed.stop) (hv : Cursor.Passes ⟨0, lexed.lexemes⟩ v d)
    (hreached : x.reached = d.stop) (length : ℕ) : errorPlace x lexed length =
      (d.rest.head?.map (·.start)).getD (lexed.stop.getD length) := by
  obtain ⟨hbefore, hbehind⟩ := h.divided hv
  have hls : lexed.lexemes = v ++ d.rest := hv.rest
  have hmem : ∀ l ∈ v, l ∈ lexed.lexemes := fun l hl => hls ▸ List.mem_append_left _ hl
  have hnone : v.find? (fun l => decide (x.reached ≤ l.start)) = none := by
    refine List.find?_eq_none.2 fun l hl hle => ?_
    have hle := of_decide_eq_true hle
    have hlt := (h.within l (hmem l hl)).2.1
    have hstop := hbefore l hl
    omega
  unfold errorPlace
  rw [hls, List.find?_append, hnone, Option.none_or]
  cases hrest : d.rest with
  | nil => rfl
  | cons l rest =>
    have hl : x.reached ≤ l.start := hreached.trans_le (hbehind l (hrest ▸ List.mem_cons_self))
    rw [List.find?_cons, decide_eq_true hl]
    rfl

section Places

variable {v rest : List Lexeme} {d : Cursor} {l : Lexeme}
  (htokens : TokensUpTo unary 0 source.toList ls stop) (hv : Cursor.Passes ⟨0, ls⟩ v d)
  (hopens : Opens (startRule unary).language v)
include htokens hv hopens

/-- A token that is not gone through goes on with no sentence. -/
theorem offence_token (hrest : d.rest = l :: rest) (hreached : (readings unary ls).reached = d.stop) :
    Offence unary source l.start := by
  obtain ⟨hbefore, hbehind⟩ := htokens.divided hv
  have hls : ls = v ++ l :: rest := hrest ▸ hv.rest
  rw [hrest] at hbehind
  have hl := hbehind l List.mem_cons_self
  have hmem : ∀ k ∈ l :: rest, k ∈ ls := fun k hk => hls ▸ List.mem_append_right v hk
  have hlater : ∀ k ∈ l :: rest, l.start < k.stop := by
    have hpairwise := htokens.pairwise
    rw [hls] at hpairwise
    obtain ⟨hfirst, -⟩ := List.pairwise_cons.1 (List.pairwise_append.1 hpairwise).2.1
    have hspan := (htokens.within l (hmem l List.mem_cons_self)).2.1
    refine List.forall_mem_cons.2 ⟨hspan, fun k hk => ?_⟩
    have hk' := (htokens.within k (hmem k (List.mem_cons_of_mem l hk))).2.1
    exact hspan.trans_le ((hfirst k hk).trans hk'.le)
  have hfilter : ls.filter (·.stop ≤ l.start) = v := by
    rw [hls]
    exact filter_stop_le (fun k hk => (hbefore k hk).trans hl) hlater
  refine ⟨ls, stop, htokens, hfilter.symm ▸ hopens, .inr (.inr ⟨l, hmem l List.mem_cons_self, rfl, ?_⟩)⟩
  rw [hfilter]
  intro hmore
  have hgone := le_readings_reached htokens.ordered (hv.trans (.singleton hrest)) hmore
  have hlt := hlater l List.mem_cons_self
  rw [hreached] at hgone
  exact absurd (hl.trans_lt hlt) (Nat.not_lt_of_le hgone)

/-- Behind all tokens, nothing can be scanned, or the source ends without being a sentence. -/
theorem offence_end (hrest : d.rest = [])
    (hcomplete : stop = none → ls ∉ (startRule unary).language) :
    Offence unary source (stop.getD source.length) := by
  have hls : ls = v := by
    have hrest' : ls = v ++ d.rest := hv.rest
    rwa [hrest, List.append_nil] at hrest'
  have hlength : source.toList.length = source.length := String.length_toList
  have hbefore : ∀ l ∈ ls, l.stop ≤ stop.getD source.length := by
    cases hstop : stop with
    | some p => exact (hstop ▸ htokens).stuck_within.2.2
    | none =>
      intro l hl
      have hle := (htokens.within l hl).2.2
      dsimp only [Option.getD_none]
      omega
  have hfilter : ls.filter (·.stop ≤ stop.getD source.length) = ls :=
    List.filter_eq_self.2 fun l hl => decide_eq_true (hbefore l hl)
  have hall : Opens (startRule unary).language ls := hls ▸ hopens
  refine ⟨ls, stop, htokens, hfilter.symm ▸ hall, ?_⟩
  cases stop with
  | some p =>
    obtain ⟨-, hp, -⟩ := htokens.stuck_within
    refine .inr (.inl ⟨fun l hl => ?_, htokens.stuck_at, by dsimp only [Option.getD_some]; omega⟩)
    exact ((htokens.within l hl).2.1.trans_le (hbefore l hl)).ne
  | none => exact .inl ⟨rfl, rfl, hall, hcomplete rfl⟩

end Places

theorem Offence.le_length {start : ℕ} (h : Offence unary source start) : start ≤ source.length := by
  obtain ⟨ls, stop, htokens, -, ⟨rfl, -⟩ | ⟨-, -, hlt⟩ | ⟨l, hl, rfl, -⟩⟩ := h
  · exact le_rfl
  · exact hlt.le
  · obtain ⟨-, hlt, hle⟩ := htokens.within l hl
    have hlength : source.toList.length = source.length := String.length_toList
    omega

/-- A source without a tree fails where its tokens cannot go on. -/
theorem offence_errorPlace (h : ∀ t, parse unary source ≠ .ok t) :
    Offence unary source (errorPlace (readings unary (lex unary source).lexemes) (lex unary source)
      source.length) := by
  have htokens := lex_upTo unary source
  obtain ⟨v, d, hv, hreached, hopens⟩ := readings_reached unary (lex unary source).lexemes
  rw [errorPlace_eq htokens hv hreached]
  cases hrest : d.rest with
  | cons l rest => exact offence_token htokens hv hopens hrest hreached
  | nil =>
    refine offence_end htokens hv hopens hrest fun hstop => ?_
    -- with all its tokens in a sentence, the source would have a tree
    have hcomplete := readings_complete unary htokens.ordered
    cases hread : (readings unary (lex unary source).lexemes).complete? with
    | none =>
      rw [hread] at hcomplete
      exact hcomplete
    | some t => exact absurd (parse_eq_ok.2 ⟨hstop, hread⟩) (h t)

theorem parse_eq_unparseable (h : ∀ t, parse unary source ≠ .ok t) : ∃ start,
    start = errorPlace (readings unary (lex unary source).lexemes) (lex unary source) source.length ∧
      parse unary source = .error (.unparseable start (min (start + 1) source.length) (some source)) := by
  refine ⟨_, rfl, ?_⟩
  unfold parse at h ⊢
  dsimp only at h ⊢
  split
  · rename_i t hstop ht
    rw [hstop, ht] at h
    exact absurd rfl (h t)
  · rfl

/-- **A source without a tree fails at its first offence.** No other failure leaves the parser. The place
that it names lies within the source: the tokens before it begin a sentence, and what comes there cannot
go on with it. -/
theorem parse_offends {e : Failure} (h : parse unary source = .error e) :
    ∃ start stop, e = .unparseable start stop (some source) ∧ start ≤ stop ∧
      stop = min (start + 1) source.length ∧ stop ≤ source.length ∧ Offence unary source start := by
  have hfails : ∀ t, parse unary source ≠ .ok t := fun t ht => nomatch h.symm.trans ht
  have hoffence := offence_errorPlace hfails
  obtain ⟨start, hstart, hparse⟩ := parse_eq_unparseable hfails
  rw [← hstart] at hoffence
  rw [hparse] at h
  cases h
  exact ⟨start, _, rfl, le_min (Nat.le_succ _) hoffence.le_length, rfl, Nat.min_le_right _ _, hoffence⟩

/-- A second operator comes where an operand is due. -/
theorem parse_offends_at_star :
    parse false "1 + * 2" = .error (.unparseable 4 5 (some "1 + * 2")) ∧ Offence false "1 + * 2" 4 := by
  have hno : (parse false "1 + * 2").toOption.isSome = false := by decide +kernel
  have hplace : errorPlace (readings false (lex false "1 + * 2").lexemes) (lex false "1 + * 2")
      "1 + * 2".length = 4 := by decide +kernel
  have hfails : ∀ t, parse false "1 + * 2" ≠ .ok t := by
    intro t ht
    rw [ht] at hno
    cases hno
  obtain ⟨start, hstart, h⟩ := parse_eq_unparseable hfails
  rw [hplace] at hstart
  subst hstart
  obtain ⟨start, stop, he, -, -, -, hoffence⟩ := parse_offends h
  cases he
  exact ⟨h, hoffence⟩

end Criterion

import Criterion.Proofs.Commas

/-!
# Where the word `in` stands

In an operand the word `in` stands within brackets, or between the bindings of a loop or a quantified expression.
So a whole operand does not go on with the word as a longer one, unless a bracket in it opens an interval that ends
behind the word.

* `Nonterminal.gain`: which rules have the word only within.
* `Derives.depth_at_in`: **how many tokens are still to be closed where the word stands.**
* `notMem_behind_in`: **no operand goes on behind a whole one with the word `in`**, if no closing bracket opens an
  interval there.
-/

namespace Criterion

/-- How many more tokens are to be closed where the word `in` stands in a rule than where the rule begins, at
least. -/
def Nonterminal.gain : Nonterminal → ℕ
  | .expressions | .unaryTests | .positiveUnaryTests | .positiveUnaryTest | .expression | .forExpression
  | .quantifiedExpression | .ifExpression | .inExpressions | .inExpression | .iterationContext | .orTest | .andTest
  | .compareTest | .comparison | .positionalParameters | .contextEntry => 0
  | _ => 1

/-- Whether a symbol is the bracket that opens an interval. -/
def Symbol.isStart : Symbol → Bool
  | .rule n => n = .intervalStart
  | _ => false

mutual

/-- How many tokens are still to be closed behind what derives from a symbol, if the word `in` stands in it only
where `m` tokens at least are to be closed. A bracket of an interval opens it or closes it, either way round. -/
def Symbol.nestingBehind (m d : ℕ) : Symbol → Option ℕ
  | .named kinds | .text kinds =>
    if .keyword .inWord ∈ kinds ∧ d < m then none else Symbol.depthBehind d (.text kinds)
  | .rule n =>
    if n = .intervalStart then some (d + 1)
    else if n = .intervalEnd then if d = 0 then none else some (d - 1)
    else if d + n.gain < m then none else Symbol.depthBehind d (.rule n)
  | .many body | .optional body => if Symbol.nestingsBehind m d body = some d then some d else none

/-- The same for some symbols. Two dots follow the bracket that opens an interval. -/
def Symbol.nestingsBehind (m d : ℕ) : List Symbol → Option ℕ
  | [] => some d
  | s :: rest =>
    if s.isStart && !rest.any Symbol.isDots then none
    else (s.nestingBehind m d).bind fun e => Symbol.nestingsBehind m e rest

end

/-- **Every rule has the word `in` only where it may stand.** -/
theorem productions_nested (n : Nonterminal) (hn : n.isBound = false) :
    ∀ p ∈ n.productions, (Symbol.nestingsBehind (n.leastDepth + n.gain) n.leastDepth p.body).isSome = true := by
  cases n <;> first | cases hn; done | decide

section Symbols

variable {m d e : ℕ} {a body rest : List Symbol} {s : Symbol} {kinds : List Terminal} {l : Lexeme} {n : Nonterminal}

theorem nestings_cons (h : Symbol.nestingsBehind m d (s :: rest) = some e) :
    (s.isStart = true → rest.any Symbol.isDots = true) ∧
      ∃ d', s.nestingBehind m d = some d' ∧ Symbol.nestingsBehind m d' rest = some e := by
  rw [Symbol.nestingsBehind] at h
  split at h
  · cases h
  · rename_i hdots
    refine ⟨fun hs => ?_, Option.bind_eq_some_iff.1 h⟩
    rw [hs, Bool.true_and] at hdots
    simpa using hdots

theorem nestingsBehind_append (h : Symbol.nestingsBehind m d a = some e) (b : List Symbol) :
    Symbol.nestingsBehind m d (a ++ b) = Symbol.nestingsBehind m e b := by
  induction a generalizing d with
  | nil =>
    cases h
    rfl
  | cons s a ih =>
    obtain ⟨hdots, d', hs, hrest⟩ := nestings_cons h
    have hstart : ¬ (s.isStart && !(a ++ b).any Symbol.isDots) = true := by
      intro hnone
      obtain ⟨hstart, hnone⟩ := Bool.and_eq_true_iff.1 hnone
      rw [List.any_append, hdots hstart] at hnone
      cases hnone
    rw [List.cons_append, Symbol.nestingsBehind, if_neg hstart, hs]
    exact ih hrest

/-- A token, and what follows it. -/
theorem nestings_token (hl : l.kind ∈ kinds)
    (h : Symbol.nestingsBehind m d (.text kinds :: rest) = some e) :
    (l.kind = .keyword .inWord → m ≤ d) ∧
      ∃ d', l.kind.depthBehind d = some d' ∧ Symbol.nestingsBehind m d' rest = some e := by
  obtain ⟨-, d', hs, hrest⟩ := nestings_cons h
  rw [Symbol.nestingBehind] at hs
  split at hs
  · cases hs
  · rename_i hin
    refine ⟨fun hkind => ?_, d', depthBehind_of_mem hl hs, hrest⟩
    rw [hkind] at hl
    exact Nat.le_of_not_lt fun hlt => hin ⟨hl, hlt⟩

/-- Some symbols that may be left out, or stand again. -/
theorem nestings_repeated (h : Symbol.nestingsBehind m d (.many body :: rest) = some e) :
    Symbol.nestingsBehind m d body = some d ∧ Symbol.nestingsBehind m d rest = some e := by
  obtain ⟨-, d', hs, hrest⟩ := nestings_cons h
  rw [Symbol.nestingBehind] at hs
  split at hs
  · rename_i hbody
    cases hs
    exact ⟨hbody, hrest⟩
  · cases hs

/-- A rule that is no bracket of an interval. -/
theorem nestings_rule (hn : n.isBound = false) (h : Symbol.nestingsBehind m d (.rule n :: rest) = some e) :
    m ≤ d + n.gain ∧ n.leastDepth ≤ d ∧ Symbol.nestingsBehind m d rest = some e := by
  obtain ⟨-, d', hs, hrest⟩ := nestings_cons h
  have hstart : n ≠ .intervalStart := by
    rintro rfl
    cases hn
  have hend : n ≠ .intervalEnd := by
    rintro rfl
    cases hn
  rw [Symbol.nestingBehind, if_neg hstart, if_neg hend] at hs
  split at hs
  · cases hs
  rename_i hgain
  rw [Symbol.depthBehind, hn, if_neg Bool.false_ne_true] at hs
  split at hs
  · cases hs
  rename_i hdepth
  cases hs
  exact ⟨Nat.le_of_not_lt hgain, Nat.le_of_not_lt hdepth, hrest⟩

end Symbols

/-! ## Derivations -/

/-- No interval that a closing bracket opens goes on behind a place: before it no two dots stand, and no closing
bracket if two dots follow. -/
structure Unopened (u v : List Lexeme) : Prop where
  undotted : ∀ k ∈ u, k.kind ≠ .dots
  unopened : (∃ k ∈ u, k.kind = .rightBracket) → ∀ k ∈ v, k.kind ≠ .dots

theorem Unopened.mono {u u' v v' : List Lexeme} (h : Unopened u v) (hu : u' ⊆ u) (hv : v' ⊆ v) : Unopened u' v' :=
  ⟨fun k hk => h.undotted k (hu hk), fun ⟨k, hk, hkind⟩ j hj => h.unopened ⟨k, hu hk, hkind⟩ j (hv hj)⟩

section Derived

variable {keeps : Bool} {body : List Symbol} {n : Nonterminal} {u v w : List Lexeme} {ts : List Tree} {l : Lexeme}
  {m d e : ℕ}

/-- A bracket of an interval is not the word `in`. -/
theorem in_notMem_bound (hw : w ∈ n.language) (hn : n.isBound = true) (hl : l ∈ w) :
    l.kind ≠ .keyword .inWord := by
  obtain ⟨kinds, hlanguage, hkinds⟩ : ∃ kinds, n.language = tokenOf kinds ∧ .keyword .inWord ∉ kinds := by
    cases n <;> first | cases hn; done | exact ⟨_, language_token rfl rfl, by decide⟩
  rw [hlanguage] at hw
  obtain ⟨k, rfl, hk⟩ := hw
  rw [List.mem_singleton.1 hl]
  exact fun hkind => hkinds (hkind ▸ hk)

/-- How deep a bracket of an interval leads, before what goes on behind it. -/
theorem depthBehind_bound {rest : List Symbol} {s us : List Lexeme} (hn : n.isBound = true) (hs : s ∈ n.language)
    (hrest : Derives keeps rest (us ++ l :: v) ts) (hl : l.kind = .keyword .inWord) (hclear : Unopened (s ++ us) v)
    (h : Symbol.nestingsBehind m d (.rule n :: rest) = some e) :
    ∃ d' e', depthBehind d s = some d' ∧ e' ≤ d' ∧ Symbol.nestingsBehind m e' rest = some e := by
  obtain ⟨hdots, e', hsymbol, hbehind⟩ := nestings_cons h
  have hstart : Nonterminal.intervalStart.language = tokenOf [.leftParen, .rightBracket, .leftBracket] :=
    language_token rfl rfl
  have hend : Nonterminal.intervalEnd.language = tokenOf [.rightParen, .leftBracket, .rightBracket] :=
    language_token rfl rfl
  cases n <;> first | cases hn; done | skip
  · cases hsymbol
    rw [hstart] at hs
    obtain ⟨k, rfl, hk⟩ := hs
    refine ⟨d + 1, d + 1, ?_, le_rfl, hbehind⟩
    -- the bracket is not the closing one, since two dots follow
    have hopen : k.kind ≠ .rightBracket := by
      intro hkind
      obtain ⟨j, hj, hjkind⟩ := hrest.mem_dots (hdots rfl)
      rcases List.mem_append.1 hj with hj | hj
      · exact hclear.undotted j (List.mem_append_right _ hj) hjkind
      · rcases List.mem_cons.1 hj with rfl | hj
        · rw [hl] at hjkind
          cases hjkind
        · exact hclear.unopened ⟨k, List.mem_cons_self, hkind⟩ j hj hjkind
    simp only [List.mem_cons, List.not_mem_nil, or_false] at hk
    rcases hk with hk | hk | hk
    · rw [depthBehind, hk]
      rfl
    · exact absurd hk hopen
    · rw [depthBehind, hk]
      rfl
  · rw [hend] at hs
    obtain ⟨k, rfl, hk⟩ := hs
    rw [Symbol.nestingBehind, if_neg (by decide), if_pos rfl] at hsymbol
    split at hsymbol
    · cases hsymbol
    rename_i hd
    cases hsymbol
    simp only [List.mem_cons, List.not_mem_nil, or_false] at hk
    rcases hk with hk | hk | hk
    · exact ⟨d - 1, d - 1, by simp [depthBehind, hk, Terminal.depthBehind, hd], le_rfl, hbehind⟩
    · exact ⟨d + 1, d - 1, by simp [depthBehind, hk, Terminal.depthBehind], by omega, hbehind⟩
    · exact ⟨d - 1, d - 1, by simp [depthBehind, hk, Terminal.depthBehind, hd], le_rfl, hbehind⟩

/-- **How many tokens are still to be closed where the word `in` stands.** -/
theorem Derives.depth_at_in (h : Derives keeps body w ts) : ∀ {u v : List Lexeme}, w = u ++ l :: v →
    l.kind = .keyword .inWord → Unopened u v → ∀ {m d e : ℕ}, Symbol.nestingsBehind m d body = some e →
      ∃ d', Criterion.depthBehind d u = some d' ∧ m ≤ d' := by
  have htoken : ∀ {kinds : List Terminal} {rest : List Symbol} {k : Lexeme} {w u v : List Lexeme}, k.kind ∈ kinds →
      k :: w = u ++ l :: v → l.kind = .keyword .inWord → Unopened u v →
      (∀ {u v : List Lexeme}, w = u ++ l :: v → l.kind = .keyword .inWord → Unopened u v → ∀ {m d e : ℕ},
        Symbol.nestingsBehind m d rest = some e → ∃ d', Criterion.depthBehind d u = some d' ∧ m ≤ d') →
      ∀ {m d e : ℕ}, Symbol.nestingsBehind m d (.text kinds :: rest) = some e →
        ∃ d', Criterion.depthBehind d u = some d' ∧ m ≤ d' := by
    intro kinds rest k w u v hk hw hl hclear ih m d e hbody
    obtain ⟨hin, d', hd', hrest⟩ := nestings_token hk hbody
    cases u with
    | nil =>
      obtain ⟨rfl, -⟩ := List.cons.inj hw
      exact ⟨d, rfl, hin hl⟩
    | cons j u =>
      obtain ⟨rfl, hbehind⟩ := List.cons.inj hw
      rw [Criterion.depthBehind, hd']
      exact ih hbehind hl (hclear.mono (List.subset_cons_self _ _) (List.Subset.refl _)) hrest
  induction h with
  | nil =>
    intro u v hw
    exact absurd hw.symm (List.append_ne_nil_of_right_ne_nil u (List.cons_ne_nil l v))
  | named hk _ ih | kept hk _ ih | dropped hk _ ih => exact fun hw hl hclear => htoken hk hw hl hclear ih
  | @rule _ n p rest v₁ w₁ _ _ hp hd hrest ihbody ih =>
    intro u v hw hl hclear m d e hbody
    have hlanguage : v₁ ∈ n.language := ⟨_, p, hp, _, hd, rfl⟩
    -- the word stands behind the rule, or inside
    have hbehind : ∀ s, u = v₁ ++ s → w₁ = s ++ l :: v → ∃ d', Criterion.depthBehind d u = some d' ∧ m ≤ d' := by
      rintro s rfl rfl
      obtain ⟨d', e', hd', hle, hnext⟩ : ∃ d' e', Criterion.depthBehind d v₁ = some d' ∧ e' ≤ d' ∧
          Symbol.nestingsBehind m e' rest = some e := by
        cases hn : n.isBound with
        | true => exact depthBehind_bound hn hlanguage hrest hl hclear hbody
        | false =>
          obtain ⟨-, hdepth, hnext⟩ := nestings_rule hn hbody
          exact ⟨d, d, depthBehind_language hlanguage
            (fun k hk => hclear.undotted k (List.mem_append_left _ hk)) hn hdepth, le_rfl, hnext⟩
      obtain ⟨d₂, hd₂, hm⟩ := ih rfl hl (hclear.mono (List.subset_append_right _ _) (List.Subset.refl _)) hnext
      refine ⟨d₂ + (d' - e'), ?_, by omega⟩
      have hshifted := depthBehind_add hd₂ (d' - e')
      rw [Nat.add_sub_cancel' hle] at hshifted
      rw [depthBehind_append, hd']
      exact hshifted
    rcases List.append_eq_append_iff.1 hw with ⟨s, hu, hw₁⟩ | ⟨s, hv₁, hw₁⟩
    · exact hbehind s hu hw₁
    cases s with
    | nil => exact hbehind [] (by rw [hv₁, List.append_nil, List.append_nil]) hw₁.symm
    | cons k s =>
      obtain ⟨rfl, rfl⟩ := List.cons.inj hw₁
      have hn : n.isBound = false := by
        refine Bool.eq_false_of_not_eq_true fun hn => in_notMem_bound hlanguage hn (l := l) ?_ hl
        rw [hv₁]
        simp
      obtain ⟨hgain, hdepth, -⟩ := nestings_rule hn hbody
      obtain ⟨e', he'⟩ := Option.isSome_iff_exists.1 (productions_nested n hn p hp)
      obtain ⟨d', hd', hm⟩ := ihbody hv₁ hl
        (hclear.mono (List.Subset.refl _) (List.subset_append_left _ _)) he'
      have hshifted := depthBehind_add hd' (d - n.leastDepth)
      rw [Nat.add_sub_cancel' hdepth] at hshifted
      exact ⟨_, hshifted, by omega⟩
  | absent _ ih | done _ ih => exact fun hw hl hclear _ _ _ hbody => ih hw hl hclear (nestings_repeated hbody).2
  | present _ ih =>
    intro u v hw hl hclear m d e hbody
    obtain ⟨hinner, hnext⟩ := nestings_repeated hbody
    exact ih hw hl hclear ((nestingsBehind_append hinner _).trans hnext)
  | again _ ih =>
    intro u v hw hl hclear m d e hbody
    obtain ⟨hinner, -⟩ := nestings_repeated hbody
    exact ih hw hl hclear ((nestingsBehind_append hinner _).trans hbody)

/-- **No operand goes on behind a whole one with the word `in`**, unless a closing bracket of the first opens an
interval, which ends behind two dots. -/
theorem notMem_behind_in (hu : u ∈ Nonterminal.instanceTest.language) (hl : l.kind = .keyword .inWord)
    (hclear : Unopened u v) : u ++ l :: v ∉ Nonterminal.instanceTest.language := by
  rintro ⟨_, p, hp, ts, hd, -⟩
  obtain ⟨e, he⟩ := Option.isSome_iff_exists.1 (productions_nested .instanceTest rfl p hp)
  obtain ⟨d, hdepth, hpos⟩ := hd.depth_at_in rfl hl hclear he
  have hclosed : depthBehind 0 u = some 0 := depthBehind_language hu hclear.undotted rfl le_rfl
  cases hclosed.symm.trans hdepth
  exact absurd hpos (by decide)

end Derived

end Criterion

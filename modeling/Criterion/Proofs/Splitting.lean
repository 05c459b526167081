import Criterion.Proofs.Joining

/-!
# Where some sources in one are split

Sources with commas between them are read as a row of expressions, since theirs is one. Which row is read depends
on where the first expressions end. If the expressions that are read end where the sources do, each of them is
that of its source, further on; and they can end elsewhere only if the tokens are a row of expressions in two
ways.

* `Reader.ReadsRow`: items read one after the other, with commas between them.
* `Alone.eq_moved`: what is read of the tokens of a source among others is its own tree.
* `Joined.eq_of_spans`: **a row that is read of some sources in one has their own trees**, if each tree of it spans
  one of them.
* `parse_joined`: **some sources in one are accepted**, with a row of expressions.
-/

namespace Criterion

open Reader

/-! ## Rows of items -/

namespace Reader

/-- Items read one after the other, with a comma between each two of them. -/
inductive ReadsRow (item : Reader Tree) : Cursor → List Tree → Cursor → Prop where
  | last {c d : Cursor} {u : Tree} : (u, d) ∈ (item c).found → ReadsRow item c [u] d
  | more {c x d : Cursor} {u : Tree} {us : List Tree} {comma : Lexeme} {rest : List Lexeme} :
    (u, x) ∈ (item c).found → x.rest = comma :: rest → comma.kind = .comma →
      ReadsRow item ⟨comma.stop, rest⟩ us d → ReadsRow item c (u :: us) d

variable {item : Reader Tree} {c d : Cursor} {items us : List Tree}

theorem ReadsRow.ne_nil (h : ReadsRow item c us d) : us ≠ [] := by
  cases h <;> exact List.cons_ne_nil _ _

theorem mem_skip {kind : Terminal} {x : Unit × Cursor} (h : x ∈ (skip kind c).found) :
    ∃ l rest, c.rest = l :: rest ∧ l.kind = kind ∧ x.2 = ⟨l.stop, rest⟩ := by
  have hskip : skip kind c = (token [kind] c).bind fun _ => pure () := rfl
  rw [hskip] at h
  obtain ⟨⟨t, y⟩, htoken, hx⟩ := Readings.of_mem_bind h
  obtain rfl := List.mem_singleton.1 hx
  rcases token_cases [kind] c with hread | ⟨l, e, hl, hkind, hread⟩
  · rw [hread] at htoken
    exact absurd htoken List.not_mem_nil
  · rw [hread] at htoken
    cases List.mem_singleton.1 htoken
    have hstop : y.stop = l.stop := hl.stop
    exact ⟨l, y.rest, hl.rest, List.mem_singleton.1 hkind, by rw [← hstop]⟩

theorem mem_itemStep {x : List Tree × Cursor} (h : x ∈ (itemStep item items c).found) :
    ∃ comma rest u, c.rest = comma :: rest ∧ comma.kind = .comma ∧ (u, x.2) ∈ (item ⟨comma.stop, rest⟩).found ∧
      x.1 = items ++ [u] := by
  have hstep : itemStep item items c = (skip .comma c).bind fun _ d =>
      (item d).bind fun next => pure (items ++ [next]) := rfl
  rw [hstep] at h
  obtain ⟨y, hcomma, h⟩ := Readings.of_mem_bind h
  obtain ⟨⟨u, z⟩, hu, h⟩ := Readings.of_mem_bind h
  obtain rfl := List.mem_singleton.1 h
  obtain ⟨comma, rest, hrest, hkind, hy⟩ := mem_skip hcomma
  rw [hy] at hu
  exact ⟨comma, rest, u, hrest, hkind, hu, rfl⟩

/-- What the steps of a list add: nothing, or a row of items behind a comma. -/
theorem readsRow_of_steps (fuel : ℕ) : ∀ {items : List Tree} {c : Cursor},
    (us, d) ∈ (steps (itemStep item) fuel items c).found → ∃ added, us = items ++ added ∧
      (added = [] ∨ ∃ comma rest, c.rest = comma :: rest ∧ comma.kind = .comma ∧
        ReadsRow item ⟨comma.stop, rest⟩ added d) ∧ (added = [] → d = c) := by
  induction fuel with
  | zero =>
    intro items c h
    cases List.mem_singleton.1 h
    exact ⟨[], (List.append_nil _).symm, .inl rfl, fun _ => rfl⟩
  | succ fuel ih =>
    intro items c h
    rcases Readings.of_mem_union h with h | h
    · obtain ⟨⟨more, x⟩, hstep, h⟩ := Readings.of_mem_bind h
      obtain ⟨comma, rest, u, hrest, hkind, hu, rfl⟩ := mem_itemStep hstep
      obtain ⟨added, rfl, hadded, hend⟩ := ih h
      refine ⟨u :: added, by rw [List.append_assoc]; rfl, .inr ⟨comma, rest, hrest, hkind, ?_⟩, fun h => nomatch h⟩
      rcases hadded with rfl | ⟨comma', rest', hrest', hkind', hadded⟩
      · rw [hend rfl]
        exact .last hu
      · exact .more hu hrest' hkind' hadded
    · cases List.mem_singleton.1 h
      exact ⟨[], (List.append_nil _).symm, .inl rfl, fun _ => rfl⟩

/-- **A list is read as a row of items.** -/
theorem readsRow_of_separated (h : (us, d) ∈ (separated item c).found) : ReadsRow item c us d := by
  obtain ⟨⟨first, x⟩, hfirst, hchain⟩ := Readings.of_mem_bind h
  obtain ⟨added, rfl, rfl | ⟨comma, rest, hrest, hkind, hadded⟩, hend⟩ := readsRow_of_steps x.rest.length hchain
  · rw [hend rfl]
    exact .last hfirst
  · exact .more hfirst hrest hkind hadded

theorem readsRow_of_all {P : List Lexeme → Tree → Prop} (h : item.Yields P) (ho : c.Ordered)
    (hall : (separated item).all? c = some us) : ReadsRow item c us ⟨c.last, []⟩ := by
  obtain ⟨others, hfound⟩ := found_of_all? h.steady.separated (descending_separated item c) ho hall
  refine readsRow_of_separated ?_
  rw [hfound]
  exact List.mem_cons_self

end Reader

/-! ## The tokens of a row -/

section Rows

variable {n : ℕ} {c d : Cursor} {us : List Tree} {rows : List (List Lexeme)} {w : List Lexeme}

/-- The tokens of a row of expressions are expressions with commas between them, one for each tree. -/
theorem Reader.ReadsRow.splits (h : ReadsRow (Grammar.expression n) c us d) (hd : d.rest = []) :
    ∃ rows, SplitsInto c.rest rows ∧ rows.map spanOf = us.map Tree.span := by
  induction h with
  | @last c d u hu =>
    obtain ⟨w, hw, htells⟩ := (Grammar.yields_expression n c).spans _ hu
    have hall : c.rest = w := by simpa [hd] using hw.rest
    rw [hall]
    exact ⟨[w], ⟨.last w, List.forall_mem_singleton.2 ⟨_, htells⟩⟩, by simp [htells.span rfl]⟩
  | @more c x d u us comma rest hu hrest hkind _ ih =>
    obtain ⟨rows, hsplits, hspans⟩ := ih hd
    obtain ⟨w, hw, htells⟩ := (Grammar.yields_expression n c).spans _ hu
    rw [hw.rest, hrest]
    exact ⟨w :: rows, ⟨.more hkind hsplits.separated, List.forall_mem_cons.2 ⟨⟨_, htells⟩, hsplits.expressions⟩⟩,
      by simp [htells.span rfl, hspans]⟩

/-- Expressions with commas between them derive from the rule of sources. -/
theorem SplitsInto.derives (h : SplitsInto w rows) :
    ∃ ts, Derives false (Nonterminal.commas .expression) w ts := by
  obtain ⟨hsep, hrows⟩ := h
  induction hsep with
  | last w =>
    obtain ⟨t, ht⟩ := hrows w List.mem_cons_self
    have hd : Derives false (Nonterminal.commas .expression) (w ++ []) (t ++ []) := ht.derives (.done .nil)
    rw [List.append_nil] at hd
    exact ⟨_, hd⟩
  | more hkind _ ih =>
    obtain ⟨hw, hrows⟩ := List.forall_mem_cons.1 hrows
    obtain ⟨t, ht⟩ := hw
    obtain ⟨ts, hts⟩ := ih hrows
    exact ⟨_, ht.derives (.again (.dropped (List.mem_singleton.2 hkind) hts))⟩

theorem SplitsInto.mem_language (h : SplitsInto w rows) : w ∈ Nonterminal.expressions.language := by
  obtain ⟨ts, hts⟩ := h.derives
  exact ⟨_, Nonterminal.plain (Nonterminal.commas .expression), List.mem_singleton_self _, ts, hts, rfl⟩

end Rows

/-! ## Sources among others -/

section Sources

variable {k n : ℕ} {s : String} {ls w after : List Lexeme} {t u : Tree} {sources : List String} {ts us : List Tree}
  {rows : List (List Lexeme)} {d : Cursor}

theorem spanOf_moved (k : ℕ) (w : List Lexeme) :
    spanOf (w.map (Lexeme.moved k)) = (spanOf w).map (Span.moved k) := by
  cases w with
  | nil => rfl
  | cons l w =>
    rw [List.map_cons, spanOf_cons _ _ (0 + k), spanOf_cons _ _ 0]
    unfold Cursor.stopAfter
    rw [← List.map_cons, List.getLast?_map]
    cases (l :: w).getLast? <;> rfl

theorem Alone.span (h : Alone s ls t) (k : ℕ) : spanOf (ls.map (Lexeme.moved k)) = (t.moved k).span := by
  rw [spanOf_moved, moved_span, h.tells.span rfl]

/-- **Among others, the tokens of a source are read as its own tree**, by a reading that ends with them. -/
theorem Alone.eq_moved (h : Alone s ls t) (hn : ls.length < n)
    (ho : (Cursor.within ⟨k, after⟩ ⟨0, ls⟩).Ordered)
    (hu : (u, d) ∈ (Grammar.expression n (Cursor.within ⟨k, after⟩ ⟨0, ls⟩)).found)
    (hd : d.stop = Cursor.last ⟨0, ls⟩ + k) : u = t.moved k := by
  have hlocal : Local ⟨k, after⟩ (ls.length + 1) (Tree.moved k) (Grammar.expression (ls.length + 1))
      (Grammar.expression n) := Grammar.local_expression hn
  have hdesc : Readings.Descending (Grammar.expression (ls.length + 1) ⟨0, ls⟩).found :=
    Grammar.descending_expression (ls.length + 1) ⟨0, ls⟩
  obtain ⟨others, hfound⟩ := found_of_all? hlocal.steady hdesc ho.of_within h.read
  obtain ⟨-, far, hreadings, hfar⟩ := hlocal.embeds ⟨0, ls⟩ ho (Nat.lt_succ_self _)
  rw [hreadings, hfound] at hu
  rcases List.mem_append.1 hu with hu | hu
  · exact absurd (hfar _ hu) (by rw [hd]; exact lt_irrefl _)
  rw [List.map_cons] at hu
  rcases List.mem_cons.1 hu with hu | hu
  · exact congrArg Prod.fst hu
  · -- one reading ends at each place
    obtain ⟨y, hy, hplaced⟩ := List.mem_map.1 hu
    rw [hfound] at hdesc
    have hearlier : y.2.stop < Cursor.last ⟨0, ls⟩ := (List.pairwise_cons.1 hdesc).1 y hy
    have hstop : y.2.stop + k = d.stop := congrArg (fun z => z.2.stop) hplaced
    omega

theorem stopAfter_moved (k : ℕ) (ls : List Lexeme) :
    Cursor.stopAfter k (ls.map (Lexeme.moved k)) = Cursor.last ⟨0, ls⟩ + k := by
  unfold Cursor.last Cursor.stopAfter
  rw [List.getLast?_map]
  cases ls.getLast? with
  | none => exact (Nat.zero_add k).symm
  | some l => rfl

/-- A reading whose tree spans the source ends with it. -/
theorem Alone.stop_of_span (h : Alone s ls t) {rest : List Lexeme} {x : Cursor}
    (hu : (u, x) ∈ (Grammar.expression n ⟨k, rest⟩).found) (hspan : u.span = (t.moved k).span) :
    x.stop = Cursor.last ⟨0, ls⟩ + k := by
  obtain ⟨v, hv, hu⟩ := (Grammar.yields_expression n _).spans _ hu
  have hsame : spanOf v = spanOf (ls.map (Lexeme.moved k)) := by
    rw [h.span, ← hspan, hu.span rfl]
  obtain ⟨l, v, rfl⟩ := List.exists_cons_of_ne_nil hu.ne_nil
  obtain ⟨m, row, hls⟩ := List.exists_cons_of_ne_nil h.tells.ne_nil
  rw [hls, List.map_cons, spanOf_cons _ _ k, spanOf_cons _ _ k, ← List.map_cons, ← hls, stopAfter_moved] at hsame
  rw [hv.stop]
  exact congrArg Span.stop (Option.some.inj hsame)

theorem Joined.trees_ne_nil (h : Joined k sources ts rows w) : ts ≠ [] := by
  cases h <;> exact List.cons_ne_nil _ _

theorem Joined.spans (h : Joined k sources ts rows w) : rows.map spanOf = ts.map Tree.span := by
  induction h with
  | last h => rw [List.map_singleton, List.map_singleton, h.span]
  | more h _ ih => rw [List.map_cons, List.map_cons, h.span, ih]

/-- **A row that is read of some sources in one has their own trees**, if each tree of it spans one of them. -/
theorem Joined.eq_of_spans (h : Joined k sources ts rows w) (hn : w.length < n) (ho : Cursor.Ordered ⟨k, w⟩)
    (hus : ReadsRow (Grammar.expression n) ⟨k, w⟩ us d) (hd : d.rest = [])
    (hspans : us.map Tree.span = ts.map Tree.span) : us = ts := by
  induction h generalizing us with
  | @last k s ls t h =>
    cases hus with
    | last hu =>
      obtain ⟨v, hv, -⟩ := (Grammar.yields_expression n _).spans _ hu
      have hstop : d.stop = Cursor.last ⟨0, ls⟩ + k := by
        rw [← stopAfter_moved]
        exact (hv.rest_nil_iff ho).1 hd
      rw [← List.append_nil (ls.map (Lexeme.moved k)), within_moved] at hu ho
      rw [List.length_map] at hn
      rw [h.eq_moved hn ho hu hstop]
    | more _ _ _ hus =>
      have hnil := List.map_eq_nil_iff.1 (List.cons.inj hspans).2
      exact absurd hnil hus.ne_nil
  | @more k s ls t sources ts rows w h hmore ih =>
    cases hus with
    | last hu =>
      have hnil := List.map_eq_nil_iff.1 (List.cons.inj hspans).2.symm
      exact absurd hnil hmore.trees_ne_nil
    | @more _ x _ u us comma rest hu hrest hkind hus =>
      obtain ⟨hspan, hspans⟩ := List.cons.inj hspans
      have hrow : Cursor.Passes ⟨k, ls.map (Lexeme.moved k) ++ commaAt (k + s.length + 1) :: w⟩
          (ls.map (Lexeme.moved k)) ⟨Cursor.last ⟨0, ls⟩ + k, commaAt (k + s.length + 1) :: w⟩ :=
        ⟨rfl, (stopAfter_moved k ls).symm⟩
      -- the first expression ends where the first source does
      have hstop := h.stop_of_span hu hspan
      obtain ⟨v, hv, -⟩ := (Grammar.yields_expression n _).spans _ hu
      obtain rfl := ho.eq_of_stop hv hrow hstop
      obtain ⟨rfl, rfl⟩ := List.cons.inj hrest
      have hlength : ls.length < n ∧ w.length < n := by
        rw [List.length_append, List.length_map, List.length_cons] at hn
        omega
      have hcomma : Cursor.Passes ⟨Cursor.last ⟨0, ls⟩ + k, commaAt (k + s.length + 1) :: w⟩
          [commaAt (k + s.length + 1)] ⟨k + s.length + 2, w⟩ := .singleton rfl
      have hbehind := (ho.passes hrow).passes hcomma
      rw [within_moved] at hu ho
      rw [h.eq_moved hlength.1 ho hu rfl, ih hlength.2 hbehind hus hspans]

/-- **Some sources in one are accepted.** Their tokens are read as a row of expressions; if it is split where the
sources meet, it has their own trees. -/
theorem parse_joined (h : Joined 0 sources ts rows w) : ∃ span us,
    parse false (commaList sources) = .ok (.node .expressions span us) ∧
      (∃ rows', SplitsInto w rows' ∧ rows'.map spanOf = us.map Tree.span) ∧
      (us.map Tree.span = ts.map Tree.span → us = ts) := by
  obtain ⟨q, hq⟩ := parse_of_language h.tokens h.splits.mem_language
  have hlex : lex false (commaList sources) = ⟨w, none⟩ := lex_eq_iff.2 h.tokens
  have hread := (parse_eq_ok.1 hq).2
  rw [hlex] at hread
  have he := Grammar.yields_expression (w.length + 1)
  have ho : Cursor.Ordered ⟨0, w⟩ := h.tokens.ordered
  obtain ⟨us, hus, rfl⟩ := all?_of_complete he ho hread
  have hrow := readsRow_of_all he ho hus
  exact ⟨_, us, hq, hrow.splits rfl, h.eq_of_spans (Nat.lt_succ_self _) ho hrow rfl⟩

end Sources

end Criterion

import Criterion.Json.Dump
import Criterion.Proofs.Acceptance
import Criterion.Proofs.Spelling

/-!
# Where trees stand

A tree stands where the tokens stand that its derivation consumed, those included that the tree does not
show. The parts of a tree come of consecutive tokens, one part after the other, with dropped tokens between
them; so their spans lie inside the span of the tree and do not overlap.

* `Tree.ComesOf`: the tokens that a tree comes of.
* `Laid`: trees that come of tokens one after the other, and `Derives.laid`: the parts of a derivation do.
* `InOrder`: tokens that stand one after the other in a source, and `Tokens.inOrder`: those of a source do.
* `Tree.Exact`: what the place of a tree says about it.
* `spans_exact`: **every part of the tree of a source stands exactly where its tokens stand, around its own
  parts, and shows the text of its place.**
-/

namespace Criterion

/-! ## The tokens of a tree -/

/-- The tokens that a tree comes of: a token of itself, a node of those that derive from a production which
leaves the node. -/
inductive Tree.ComesOf : Tree → List Lexeme → Prop where
  | token (l : Lexeme) : ComesOf (.token l.token) [l]
  | node {n : Nonterminal} {p : Production} {rule : Rule} {v : List Lexeme} {children : List Tree} :
    p ∈ n.productions → n.nodeOf? p = some rule → Derives n.keeps p.body v children →
      ComesOf (.node rule (spanOf v) children) v

/-- Trees that come of consecutive tokens, one tree after the other. Tokens may be left out between them. -/
inductive Laid : List Lexeme → List Tree → Prop where
  | nil (gap : List Lexeme) : Laid gap []
  | cons (gap : List Lexeme) {v w : List Lexeme} {t : Tree} {ts : List Tree} :
    t.ComesOf v → Laid w ts → Laid (gap ++ (v ++ w)) (t :: ts)

section Tokens

variable {keeps : Bool} {body : List Symbol} {v w : List Lexeme} {t u : Tree} {ts us : List Tree}

theorem Tree.ComesOf.ne_nil (h : t.ComesOf v) : v ≠ [] := by
  cases h with
  | token l => exact List.cons_ne_nil _ _
  | node hp _ hd => exact hd.ne_nil (productions_required _ _ hp)

theorem Tree.ComesOf.span (h : t.ComesOf v) : t.span = spanOf v := by
  cases h with
  | token l => rfl
  | node hp hr hd => rfl

namespace Laid

theorem cons_left (l : Lexeme) (h : Laid w ts) : Laid (l :: w) ts := by
  cases h with
  | nil => exact .nil (l :: w)
  | cons gap ht hrest => exact .cons (l :: gap) ht hrest

theorem append_left (gap : List Lexeme) (h : Laid w ts) : Laid (gap ++ w) ts := by
  induction gap with
  | nil => exact h
  | cons l gap ih => exact ih.cons_left l

theorem append (h : Laid v us) (h' : Laid w ts) : Laid (v ++ w) (us ++ ts) := by
  induction h with
  | nil gap => exact h'.append_left gap
  | @cons gap v₁ v₂ t us ht _ ih =>
    have hsplit : gap ++ (v₁ ++ v₂) ++ w = gap ++ (v₁ ++ (v₂ ++ w)) := by simp
    rw [hsplit]
    exact .cons gap ht ih

/-- Each tree comes of tokens in a row. -/
theorem of_mem (h : Laid w ts) (ht : t ∈ ts) : ∃ v, v <:+: w ∧ t.ComesOf v := by
  induction h with
  | nil => exact absurd ht List.not_mem_nil
  | @cons gap v₁ v₂ t₁ ts ht₁ _ ih =>
    rcases List.mem_cons.1 ht with rfl | hrest
    · exact ⟨v₁, ⟨gap, v₂, by simp⟩, ht₁⟩
    · obtain ⟨v, ⟨before, after, hv⟩, hcomes⟩ := ih hrest
      refine ⟨v, ⟨gap ++ (v₁ ++ before), after, ?_⟩, hcomes⟩
      rw [← hv]
      simp

end Laid

/-- **The trees that a derivation leaves come of its tokens, one tree after the other.** -/
theorem Derives.laid (h : Derives keeps body w ts) : Laid w ts := by
  induction h with
  | nil => exact .nil []
  | @named _ _ _ l w ts _ _ ih => exact .cons [] (.token l) ih
  | @kept _ _ l w ts _ _ ih => exact .cons [] (.token l) ih
  | dropped _ _ ih => exact ih.cons_left _
  | @rule _ n p _ v w us ts hp hd _ ihbody ih =>
    have hshape : Laid v (n.shape p v us) := by
      cases hr : n.nodeOf? p with
      | none =>
        rw [Nonterminal.shape_of_none hp hr hd]
        exact ihbody
      | some rule =>
        rw [Nonterminal.shape_of_some hr]
        have hlast : Laid ([] ++ (v ++ [])) [.node rule (spanOf v) us] :=
          .cons [] (.node hp hr hd) (.nil [])
        rwa [List.nil_append, List.append_nil] at hlast
    exact hshape.append ih
  | absent _ ih | present _ ih | done _ ih | again _ ih => exact ih

end Tokens

/-! ## Tokens in order -/

/-- Tokens that stand one after the other in a text of some length, none of them empty. -/
structure InOrder (length : ℕ) (w : List Lexeme) : Prop where
  proper : ∀ l ∈ w, l.start < l.stop ∧ l.stop ≤ length
  apart : w.Pairwise fun l k => l.stop ≤ k.start

theorem Tokens.inOrder {unary : Bool} {position : ℕ} {cs : List Char} {ls : List Lexeme}
    (h : Tokens unary position cs ls) : InOrder (position + cs.length) ls := by
  induction h with
  | done => exact ⟨fun l hl => absurd hl List.not_mem_nil, .nil⟩
  | @trivia position v w _ _ _ _ _ ih =>
    have hlength : position + (v ++ w).length = position + v.length + w.length := by
      rw [List.length_append]
      omega
    rw [hlength]
    exact ih
  | @token position v w _ ls hscan _ hrest ih =>
    have hlength : position + (v ++ w).length = position + v.length + w.length := by
      rw [List.length_append]
      omega
    have hpos : 0 < v.length := List.length_pos_iff.2 hscan.ne_nil
    rw [hlength]
    constructor
    · intro l hl
      rcases List.mem_cons.1 hl with rfl | hl
      · show position < position + v.length ∧ position + v.length ≤ position + v.length + w.length
        omega
      · exact ih.proper l hl
    · refine List.pairwise_cons.2 ⟨?_, ih.apart⟩
      intro l hl
      exact (hrest.placed l hl).1

section Places

variable {length : ℕ} {v w : List Lexeme} {ts : List Tree} {s : Span}

theorem InOrder.of_part (h : InOrder length w) (hv : v <:+: w) : InOrder length v :=
  ⟨fun l hl => h.proper l (hv.subset hl), h.apart.sublist hv.sublist⟩

/-- The first of some tokens starts where their span starts, and the last one stops where it stops. -/
theorem ends_of_spanOf (h : spanOf w = some s) :
    w.head?.map (·.start) = some s.start ∧ w.getLast?.map (·.stop) = some s.stop := by
  unfold spanOf at h
  cases hfirst : w.head? with
  | none =>
    rw [hfirst] at h
    cases h
  | some first =>
    cases hlast : w.getLast? with
    | none =>
      rw [hfirst, hlast] at h
      cases h
    | some last =>
      rw [hfirst, hlast] at h
      cases h
      exact ⟨rfl, rfl⟩

theorem exists_spanOf (h : w ≠ []) : ∃ s, spanOf w = some s := by
  unfold spanOf
  rw [List.head?_eq_some_head h, List.getLast?_eq_some_getLast h]
  exact ⟨_, rfl⟩

theorem mem_ends (h : spanOf w = some s) :
    (∃ l ∈ w, l.start = s.start) ∧ ∃ l ∈ w, l.stop = s.stop := by
  obtain ⟨hfirst, hlast⟩ := ends_of_spanOf h
  obtain ⟨first, hmem, hstart⟩ := Option.map_eq_some_iff.1 hfirst
  obtain ⟨last, hmem', hstop⟩ := Option.map_eq_some_iff.1 hlast
  exact ⟨⟨first, List.mem_of_head? hmem, hstart⟩, ⟨last, List.mem_of_getLast? hmem', hstop⟩⟩

/-- The span of tokens in order reaches over all of them. -/
theorem InOrder.within (hw : InOrder length w) (h : spanOf w = some s) :
    ∀ l ∈ w, s.start ≤ l.start ∧ l.stop ≤ s.stop := by
  obtain ⟨hfirst, hlast⟩ := ends_of_spanOf h
  intro l hl
  constructor
  · cases w with
    | nil => exact absurd hl List.not_mem_nil
    | cons first rest =>
      have hstart : first.start = s.start := by simpa using hfirst
      rcases List.mem_cons.1 hl with rfl | hl
      · omega
      · have hproper := hw.proper first List.mem_cons_self
        have hapart := (List.pairwise_cons.1 hw.apart).1 l hl
        omega
  · obtain ⟨last, hmem, hstop⟩ := Option.map_eq_some_iff.1 hlast
    obtain ⟨before, rfl⟩ := List.getLast?_eq_some_iff.1 hmem
    have hproper := hw.proper last (List.mem_append_right _ List.mem_cons_self)
    rcases List.mem_append.1 hl with hl | hl
    · have hapart := (List.pairwise_append.1 hw.apart).2.2 l hl last List.mem_cons_self
      omega
    · rw [List.mem_singleton.1 hl]
      omega

theorem InOrder.proper_span (hw : InOrder length w) (h : spanOf w = some s) :
    s.start < s.stop ∧ s.stop ≤ length := by
  obtain ⟨⟨first, hfirst, hstart⟩, last, hlast, hstop⟩ := mem_ends h
  have hover := hw.within h first hfirst
  have hproper := hw.proper first hfirst
  have hend := hw.proper last hlast
  omega

/-- The spans of trees that are laid out in order: each is known and inside the tokens, and each stops
before the next one starts. -/
theorem Laid.spans (h : Laid w ts) (hw : InOrder length w) :
    ∃ spans : List Span, ts.map Tree.span = spans.map some ∧
      (∀ c ∈ spans, c.start < c.stop ∧ (∃ l ∈ w, l.start = c.start) ∧ ∃ l ∈ w, l.stop = c.stop) ∧
      spans.Pairwise fun c d => c.stop ≤ d.start := by
  induction h with
  | nil => exact ⟨[], rfl, fun c hc => absurd hc List.not_mem_nil, .nil⟩
  | @cons gap v w t ts ht _ ih =>
    have hrest : InOrder length (v ++ w) := hw.of_part (List.suffix_append _ _).isInfix
    have hv : InOrder length v := hrest.of_part (List.prefix_append _ _).isInfix
    obtain ⟨spans, hspans, hinside, happart⟩ :=
      ih (hrest.of_part (List.suffix_append _ _).isInfix)
    obtain ⟨c, hc⟩ := exists_spanOf ht.ne_nil
    obtain ⟨⟨first, hfirst, hstart⟩, last, hlast, hstop⟩ := mem_ends hc
    have hmem : ∀ l ∈ v ++ w, l ∈ gap ++ (v ++ w) := fun l hl => List.mem_append_right _ hl
    refine ⟨c :: spans, ?_, ?_, ?_⟩
    · rw [List.map_cons, List.map_cons, hspans, ht.span, hc]
    · rw [List.forall_mem_cons]
      constructor
      · exact ⟨(hv.proper_span hc).1, ⟨first, hmem _ (List.mem_append_left _ hfirst), hstart⟩,
          ⟨last, hmem _ (List.mem_append_left _ hlast), hstop⟩⟩
      · intro d hd
        obtain ⟨hproper, ⟨l, hl, hlstart⟩, k, hk, hkstop⟩ := hinside d hd
        exact ⟨hproper, ⟨l, hmem _ (List.mem_append_right _ hl), hlstart⟩,
          ⟨k, hmem _ (List.mem_append_right _ hk), hkstop⟩⟩
    · apply List.pairwise_cons.2
      refine ⟨?_, happart⟩
      intro d hd
      obtain ⟨-, ⟨l, hl, hlstart⟩, -⟩ := hinside d hd
      have hbefore := (List.pairwise_append.1 hrest.apart).2.2 last hlast l hl
      omega

end Places

/-! ## The parts of a tree -/

/-- The parts of a tree at any depth, itself included. -/
inductive Tree.IsPart (t : Tree) : Tree → Prop where
  | self : IsPart t t
  | child {rule : Rule} {span : Option Span} {children : List Tree} {u : Tree} :
    IsPart t (.node rule span children) → u ∈ children → IsPart t u

/-- The trees right below a tree. -/
def Tree.children : Tree → List Tree
  | .token _ => []
  | .node _ _ children => children

/-- A tree that comes of the tokens `v` stands at `s`, which is exactly where these tokens stand. -/
structure Tree.Exact (source : String) (u : Tree) (v : List Lexeme) (s : Span) : Prop where
  comes : u.ComesOf v
  span : u.span = some s
  starts : v.head?.map (·.start) = some s.start
  stops : v.getLast?.map (·.stop) = some s.stop
  proper : s.start < s.stop ∧ s.stop ≤ source.length
  /-- The text of a token, and of a node, is what the source has in its place. -/
  text : u.text source = s.slice source
  /-- The parts stand inside, one after the other. -/
  parts : ∃ spans : List Span, u.children.map Tree.span = spans.map some ∧
    (∀ c ∈ spans, s.start ≤ c.start ∧ c.start < c.stop ∧ c.stop ≤ s.stop) ∧
    spans.Pairwise fun c d => c.stop ≤ d.start
  /-- The dump of a node has the text of its place and the dumps of all its parts. -/
  dump : ∀ rule span children, u = .node rule span children →
    u.toJson source = .object [("type", .text rule.shown), ("span", Span.toJson (some s)),
      ("text", .text (s.slice source)), ("children", .array (children.map (Tree.toJson source)))]

section Parts

variable {unary : Bool} {source : String} {ls v w : List Lexeme} {t u : Tree} {ts : List Tree}

/-- A part of a tree comes of tokens in a row. -/
theorem Tree.ComesOf.of_isPart (ht : t.ComesOf ls) (h : t.IsPart u) :
    ∃ v, v <:+: ls ∧ u.ComesOf v := by
  induction h with
  | self => exact ⟨ls, List.infix_rfl, ht⟩
  | @child rule span children u _ hu ih =>
    obtain ⟨v, hv, hnode⟩ := ih
    cases hnode with
    | node hp hr hd =>
      obtain ⟨v', hv', hcomes⟩ := hd.laid.of_mem hu
      exact ⟨v', hv'.trans hv, hcomes⟩

/-- The tokens of a source are no blanks, so the dump of trees that come of them leaves none out. -/
theorem childrenToJson_of_laid (h : Laid w ts) (hw : ∀ l ∈ w, l.Spelled) :
    Tree.childrenToJson source ts = ts.map (Tree.toJson source) := by
  induction h with
  | nil => rfl
  | @cons gap v w t ts ht _ ih =>
    have htrivia : t.isTrivia = false := by
      cases ht with
      | token l =>
        have hl : l ∈ gap ++ ([l] ++ w) := by simp
        exact (hw l hl).trivia
      | node => rfl
    have hrest : ∀ l ∈ w, l.Spelled := by
      intro l hl
      exact hw l (List.mem_append_right _ (List.mem_append_right _ hl))
    rw [Tree.childrenToJson, htrivia, ih hrest]
    rfl

theorem isEmpty_of_slice {s : Span} (h : s.start < s.stop ∧ s.stop ≤ source.length) :
    source.isEmpty = false := by
  have hne : source ≠ "" := by
    rintro rfl
    have hlength : ("" : String).length = 0 := rfl
    omega
  simpa using hne

/-- What comes of tokens of a source stands exactly where they stand. -/
theorem Tree.ComesOf.exact (htokens : Tokens unary 0 source.toList ls) (hv : v <:+: ls)
    (hu : u.ComesOf v) : ∃ s, u.Exact source v s := by
  have hlength : 0 + source.toList.length = source.length := by
    rw [Nat.zero_add, String.length_toList]
  have horder : InOrder source.length v := (hlength ▸ htokens.inOrder).of_part hv
  obtain ⟨s, hs⟩ := exists_spanOf hu.ne_nil
  obtain ⟨hstarts, hstops⟩ := ends_of_spanOf hs
  have hproper := horder.proper_span hs
  refine ⟨s, hu, hu.span.trans hs, hstarts, hstops, hproper, ?_, ?_, ?_⟩
  · cases hu with
    | token l =>
      cases hs
      obtain ⟨-, htext⟩ := htokens.placed l (hv.subset List.mem_cons_self)
      exact htext
    | node hp hr hd =>
      rw [hs]
      rfl
  · cases hu with
    | token l => exact ⟨[], rfl, fun c hc => absurd hc List.not_mem_nil, .nil⟩
    | node hp hr hd =>
      obtain ⟨spans, hspans, hinside, happart⟩ := hd.laid.spans horder
      refine ⟨spans, hspans, ?_, happart⟩
      intro c hc
      obtain ⟨hlt, ⟨l, hl, hlstart⟩, k, hk, hkstop⟩ := hinside c hc
      have hleft := horder.within hs l hl
      have hright := horder.within hs k hk
      omega
  · rintro rule span children rfl
    cases hu with
    | node hp hr hd =>
      have hspelled : ∀ l ∈ v, l.Spelled := fun l hl => htokens.spelled l (hv.subset hl)
      unfold Tree.toJson
      rw [hs, childrenToJson_of_laid hd.laid hspelled]
      simp only [isEmpty_of_slice hproper]
      rfl

/-- The tree of a source comes of all tokens of the source. -/
theorem comesOf_of_tells (h : (startRule unary).Tells ls t) : t.ComesOf ls := by
  have hnode : ∀ p ∈ (startRule unary).productions, ((startRule unary).nodeOf? p).isSome = true := by
    cases unary <;> decide
  obtain ⟨p, hp, us, hd, hshape⟩ := h
  obtain ⟨rule, hr⟩ := Option.isSome_iff_exists.1 (hnode p hp)
  rw [Nonterminal.shape_of_some hr] at hshape
  cases hshape
  exact .node hp hr hd

/-- **Spans are exact.** The tree of a source comes of all its tokens, and every part of the tree of some of
them in a row: it spans from the start of the first to the end of the last one, around its own parts, which
stand one after the other; its text is what the source has there; and so the dump says. -/
theorem spans_exact (h : parse unary source = .ok t) :
    ∃ ls, Tokens unary 0 source.toList ls ∧ t.ComesOf ls ∧
      ∀ u, t.IsPart u → ∃ v s, v <:+: ls ∧ u.Exact source v s := by
  obtain ⟨ls, htokens, ht⟩ := tells_of_parse h
  have hroot : t.ComesOf ls := comesOf_of_tells ht
  refine ⟨ls, htokens, hroot, ?_⟩
  intro u hu
  obtain ⟨v, hv, hcomes⟩ := hroot.of_isPart hu
  obtain ⟨s, hs⟩ := hcomes.exact htokens hv
  exact ⟨v, s, hv, hs⟩

end Parts

/-- A number between parentheses that the tree does not show, behind a blank. -/
theorem spans_exact_in_parentheses : ∃ t u, parse false " (1)" = .ok t ∧ t.IsPart u ∧
    u.span = some ⟨1, 4⟩ ∧ u.children.map Tree.span = [some ⟨2, 3⟩] ∧
    ∃ v s, u.Exact " (1)" v s ∧ s.slice " (1)" = "(1)" := by
  let u : Tree := .node .parenthesizedExpression (some ⟨1, 4⟩) [.token ⟨.number, "1", some ⟨2, 3⟩⟩]
  have hparse : parse false " (1)" = .ok (.node .expressions (some ⟨1, 4⟩) [u]) := by rfl
  have hpart : Tree.IsPart (.node .expressions (some ⟨1, 4⟩) [u]) u := .child .self (.head _)
  obtain ⟨ls, -, -, hexact⟩ := spans_exact hparse
  obtain ⟨v, s, -, hs⟩ := hexact u hpart
  refine ⟨_, u, hparse, hpart, rfl, rfl, v, s, hs, ?_⟩
  have hspan : s = ⟨1, 4⟩ := (Option.some.inj hs.span).symm
  rw [hspan]
  decide

end Criterion

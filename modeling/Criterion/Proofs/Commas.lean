import Criterion.Proofs.Entries
import Mathlib.Data.List.Chain

/-!
# Where commas stand

A comma in an expression stands within brackets or between the bindings of a loop or a quantified expression, so
behind a token that opens something which a later one closes. Only the brackets of intervals may be the wrong way
round. Without the two dots of a range, commas between expressions are told apart from those inside.

* `Derives.of_kinds`: what derives is a matter of the kinds of tokens.
* `Derives.no_comment`: no star follows a slash, so two tokens of an expression are never the head of a comment.
* `depthBehind`: how many tokens behind some tokens are still to be closed, if the commas stand within.
* `Derives.depthBehind`: **without two dots, an expression closes what it opens, and its commas stand within.**
* `Separated`: rows of tokens with commas between them.
* `SplitsInto.unique`: **without two dots, a row of tokens is one of expressions in one way only.**
-/

namespace Criterion

variable {keeps : Bool} {body : List Symbol} {n : Nonterminal} {v w : List Lexeme} {ts : List Tree}

/-! ## Kinds of tokens -/

/-- What derives is a matter of the kinds of tokens. -/
theorem Derives.of_kinds (h : Derives keeps body w ts) :
    ∀ {v : List Lexeme}, v.map (·.kind) = w.map (·.kind) → ∃ us, Derives keeps body v us := by
  induction h with
  | nil =>
    intro v hv
    obtain rfl := List.map_eq_nil_iff.1 hv
    exact ⟨_, .nil⟩
  | named hl _ ih =>
    intro v hv
    obtain ⟨k, v, rfl, hk, hv⟩ := List.map_eq_cons_iff.1 hv
    obtain ⟨us, h⟩ := ih hv
    exact ⟨_, .named (hk ▸ hl) h⟩
  | kept hl _ ih =>
    intro v hv
    obtain ⟨k, v, rfl, hk, hv⟩ := List.map_eq_cons_iff.1 hv
    obtain ⟨us, h⟩ := ih hv
    exact ⟨_, .kept (hk ▸ hl) h⟩
  | dropped hl _ ih =>
    intro v hv
    obtain ⟨k, v, rfl, hk, hv⟩ := List.map_eq_cons_iff.1 hv
    obtain ⟨us, h⟩ := ih hv
    exact ⟨_, .dropped (hk ▸ hl) h⟩
  | rule hp _ _ ihbody ih =>
    intro v hv
    rw [List.map_append] at hv
    obtain ⟨u, v, rfl, hu, hv⟩ := List.map_eq_append_iff.1 hv
    obtain ⟨us, hbody⟩ := ihbody hu
    obtain ⟨vs, h⟩ := ih hv
    exact ⟨_, .rule hp hbody h⟩
  | absent _ ih => exact fun hv => (ih hv).imp fun _ h => .absent h
  | present _ ih => exact fun hv => (ih hv).imp fun _ h => .present h
  | done _ ih => exact fun hv => (ih hv).imp fun _ h => .done h
  | again _ ih => exact fun hv => (ih hv).imp fun _ h => .again h

theorem mem_language_of_kinds (h : w ∈ n.language) (hv : v.map (·.kind) = w.map (·.kind)) : v ∈ n.language := by
  obtain ⟨_, p, hp, us, hd, -⟩ := h
  obtain ⟨vs, hd⟩ := hd.of_kinds hv
  exact ⟨_, p, hp, vs, hd, rfl⟩

/-! ## Slashes and stars -/

/-- The operators that begin with a star. -/
def starKinds : List Terminal := [.star, .power]

mutual

/-- Whether a slash stands only before what does not begin with a star. -/
def Symbol.slashPlain : Symbol → Bool
  | .named _ | .text _ | .rule _ => true
  | .many body | .optional body => Symbol.slashesPlain body

def Symbol.slashesPlain : List Symbol → Bool
  | [] => true
  | .named kinds :: rest | .text kinds :: rest =>
    (.slash ∉ kinds || Symbol.startsOutside starKinds (fun _ => true) rest) && Symbol.slashesPlain rest
  | s :: rest => s.slashPlain && Symbol.slashesPlain rest

end

theorem productions_unstarred (n : Nonterminal) (_ : true = true) :
    ∀ p ∈ n.productions, Symbol.startsOutside starKinds (fun _ => true) p.body = true := by
  cases n <;> decide

theorem productions_slashesPlain (n : Nonterminal) :
    ∀ p ∈ n.productions, Symbol.slashesPlain p.body = true := by
  cases n <;> decide

theorem Symbol.startsOutside_append {kinds : List Terminal} {R : Nonterminal → Bool} {a : List Symbol}
    (h : Symbol.startsOutside kinds R a = true) (b : List Symbol) :
    Symbol.startsOutside kinds R (a ++ b) = true := by
  cases a with
  | nil => cases h
  | cons s a => cases s <;> exact h

theorem Symbol.slashesPlain_append {a b : List Symbol} (ha : Symbol.slashesPlain a = true)
    (hb : Symbol.slashesPlain b = true) : Symbol.slashesPlain (a ++ b) = true := by
  induction a with
  | nil => exact hb
  | cons s a ih =>
    cases s with
    | named kinds | text kinds =>
      obtain ⟨hslash, hrest⟩ := Bool.and_eq_true_iff.1 ha
      refine Bool.and_eq_true_iff.2 ⟨?_, ih hrest⟩
      rcases Bool.or_eq_true_iff.1 hslash with hslash | hslash
      · exact Bool.or_eq_true_iff.2 (.inl hslash)
      · exact Bool.or_eq_true_iff.2 (.inr (Symbol.startsOutside_append hslash b))
    | rule | many | optional =>
      obtain ⟨hfirst, hrest⟩ := Bool.and_eq_true_iff.1 ha
      exact Bool.and_eq_true_iff.2 ⟨hfirst, ih hrest⟩

/-- The second token does not make the first one the head of a comment. -/
def Lexeme.NoComment (l k : Lexeme) : Prop := l.kind = .slash → k.kind ∉ starKinds

/-- **No star follows a slash**, and no slash is the last token. -/
theorem Derives.no_comment (h : Derives keeps body w ts) (hbody : Symbol.slashesPlain body = true) :
    w.IsChain Lexeme.NoComment ∧ ∀ l ∈ w.getLast?, l.kind ≠ .slash := by
  have hcons : ∀ {l : Lexeme} {kinds : List Terminal} {rest : List Symbol} {keeps : Bool} {w : List Lexeme}
      {ts : List Tree}, l.kind ∈ kinds → Derives keeps rest w ts →
      ((.slash ∉ kinds || Symbol.startsOutside starKinds (fun _ => true) rest) &&
        Symbol.slashesPlain rest) = true →
      (Symbol.slashesPlain rest = true → w.IsChain Lexeme.NoComment ∧ ∀ l ∈ w.getLast?, l.kind ≠ .slash) →
      (l :: w).IsChain Lexeme.NoComment ∧ ∀ k ∈ (l :: w).getLast?, k.kind ≠ .slash := by
    intro l kinds rest keeps w ts hl hd hbody ih
    obtain ⟨hslash, hrest⟩ := Bool.and_eq_true_iff.1 hbody
    obtain ⟨hchain, hlast⟩ := ih hrest
    rcases Bool.or_eq_true_iff.1 hslash with hslash | hstarts
    · have hkind : l.kind ≠ .slash := by
        intro hkind
        rw [hkind] at hl
        exact of_decide_eq_true hslash hl
      refine ⟨List.isChain_cons.2 ⟨fun k _ hkind' => absurd hkind' hkind, hchain⟩, ?_⟩
      cases w with
      | nil =>
        intro k hk
        cases hk
        exact hkind
      | cons m w => exact hlast
    · obtain ⟨k, hk, hkind⟩ := hd.starts_outside productions_unstarred hstarts
      obtain ⟨w, rfl⟩ := List.head?_eq_some_iff.1 hk
      refine ⟨List.isChain_cons.2 ⟨fun m hm _ => ?_, hchain⟩, hlast⟩
      cases hm
      exact hkind
  induction h with
  | nil => exact ⟨.nil, fun l hl => nomatch hl⟩
  | named hl hd ih | kept hl hd ih | dropped hl hd ih => exact hcons hl hd hbody ih
  | @rule _ n p _ v w _ _ hp hd _ ihbody ih =>
    obtain ⟨-, hrest⟩ := Bool.and_eq_true_iff.1 hbody
    obtain ⟨hv, hvlast⟩ := ihbody (productions_slashesPlain n p hp)
    obtain ⟨hw, hwlast⟩ := ih hrest
    refine ⟨List.isChain_append.2 ⟨hv, hw, fun l hl k _ hkind => absurd hkind (hvlast l hl)⟩, ?_⟩
    intro l hl
    rw [List.getLast?_append] at hl
    cases hwl : w.getLast? with
    | none =>
      rw [hwl, Option.none_or] at hl
      exact hvlast l hl
    | some k =>
      rw [hwl, Option.some_or] at hl
      exact hwlast l (hwl.trans hl)
  | absent _ ih | done _ ih => exact ih (Bool.and_eq_true_iff.1 hbody).2
  | present _ ih =>
    obtain ⟨hinner, hrest⟩ := Bool.and_eq_true_iff.1 hbody
    exact ih (Symbol.slashesPlain_append hinner hrest)
  | again _ ih =>
    obtain ⟨hinner, -⟩ := Bool.and_eq_true_iff.1 hbody
    exact ih (Symbol.slashesPlain_append hinner hbody)

/-! ## How deep a token stands -/

/-- How many tokens are still to be closed behind a token, if so many are before it. Nothing can be closed where
nothing is open, and no comma stands there. -/
def Terminal.depthBehind (d : ℕ) : Terminal → Option ℕ
  | .leftParen | .leftBracket | .leftBrace => some (d + 1)
  | .keyword .forWord | .keyword .everyWord | .keyword .someWord => some (d + 1)
  | .rightParen | .rightBracket | .rightBrace => if d = 0 then none else some (d - 1)
  | .keyword .returnWord | .keyword .satisfiesWord => if d = 0 then none else some (d - 1)
  | .comma => if d = 0 then none else some d
  | _ => some d

/-- How many tokens are still to be closed behind some tokens. -/
def depthBehind (d : ℕ) : List Lexeme → Option ℕ
  | [] => some d
  | l :: w => (l.kind.depthBehind d).bind fun e => depthBehind e w

theorem depthBehind_append (d : ℕ) (v w : List Lexeme) :
    depthBehind d (v ++ w) = (depthBehind d v).bind fun e => depthBehind e w := by
  induction v generalizing d with
  | nil => rfl
  | cons l v ih =>
    rw [List.cons_append, depthBehind, depthBehind]
    cases l.kind.depthBehind d with
    | none => rfl
    | some e => exact ih e

theorem Terminal.depthBehind_add {t : Terminal} {d e : ℕ} (h : t.depthBehind d = some e) (k : ℕ) :
    t.depthBehind (d + k) = some (e + k) := by
  have hclose : ∀ {f : ℕ → ℕ}, (∀ m, m ≠ 0 → f (m + k) = f m + k) → (if d = 0 then none else some (f d)) = some e →
      (if d + k = 0 then none else some (f (d + k))) = some (e + k) := by
    intro f hf h
    split at h
    · cases h
    · rename_i hd
      cases h
      rw [if_neg (by omega), hf d hd]
  have hpred : (if d = 0 then none else some (d - 1)) = some e →
      (if d + k = 0 then none else some (d + k - 1)) = some (e + k) :=
    hclose (f := (· - 1)) fun m hm => by omega
  have hopen : some (d + 1) = some e → some (d + k + 1) = some (e + k) := by
    intro h
    cases h
    rw [Nat.add_right_comm]
  have hsame : some d = some e → some (d + k) = some (e + k) := by
    intro h
    cases h
    rfl
  unfold Terminal.depthBehind at h ⊢
  split at h
  all_goals first
    | exact hopen h
    | exact hpred h
    | exact hclose (f := id) (fun _ _ => rfl) h
    | exact hsame h

/-- What is balanced is balanced further within. -/
theorem depthBehind_add {d e : ℕ} (h : depthBehind d w = some e) (k : ℕ) :
    depthBehind (d + k) w = some (e + k) := by
  induction w generalizing d with
  | nil =>
    cases h
    rfl
  | cons l w ih =>
    obtain ⟨m, hm, h⟩ := Option.bind_eq_some_iff.1 h
    rw [depthBehind, Terminal.depthBehind_add hm k]
    exact ih h

/-- Whether the commas of a rule stand between its parts. -/
def Nonterminal.isRow : Nonterminal → Bool
  | .expressions | .unaryTests | .positiveUnaryTests | .inExpressions | .positionalParameters => true
  | _ => false

/-- Whether a rule is a bracket of an interval. -/
def Nonterminal.isBound : Nonterminal → Bool
  | .intervalStart | .intervalEnd => true
  | _ => false

/-- How deep the tokens of a rule stand at least, for its commas to stand within. -/
def Nonterminal.leastDepth (n : Nonterminal) : ℕ := if n.isRow then 1 else 0

mutual

/-- How many tokens are still to be closed behind what derives from a symbol. -/
def Symbol.depthBehind (d : ℕ) : Symbol → Option ℕ
  | .named kinds | .text kinds =>
    kinds.head?.bind fun t =>
      if kinds.all fun s => s.depthBehind d = t.depthBehind d then t.depthBehind d else none
  | .rule n => if n.isBound then none else if d < n.leastDepth then none else some d
  | .many body | .optional body => if Symbol.depthsBehind d body = some d then some d else none

def Symbol.depthsBehind (d : ℕ) : List Symbol → Option ℕ
  | [] => some d
  | s :: rest => (s.depthBehind d).bind fun e => Symbol.depthsBehind e rest

end

theorem Symbol.depthsBehind_append (d : ℕ) (a b : List Symbol) : Symbol.depthsBehind d (a ++ b) =
    (Symbol.depthsBehind d a).bind fun e => Symbol.depthsBehind e b := by
  induction a generalizing d with
  | nil => rfl
  | cons s a ih =>
    rw [List.cons_append, Symbol.depthsBehind, Symbol.depthsBehind]
    cases s.depthBehind d with
    | none => rfl
    | some e => exact ih e

/-- All rules but those of intervals close what they open. -/
theorem productions_balanced (n : Nonterminal) (hinterval : n ≠ .interval) (hbound : n.isBound = false) :
    ∀ p ∈ n.productions, Symbol.depthsBehind n.leastDepth p.body = some n.leastDepth := by
  cases n <;> first
    | exact absurd rfl hinterval
    | cases hbound; done
    | decide

/-- Whether a symbol is the two dots of a range. -/
def Symbol.isDots : Symbol → Bool
  | .text kinds => kinds = [.dots]
  | _ => false

theorem Derives.mem_dots (h : Derives keeps body w ts) (hbody : body.any Symbol.isDots = true) :
    ∃ l ∈ w, l.kind = .dots := by
  induction h with
  | nil => cases hbody
  | named _ _ ih => exact (ih hbody).imp fun _ h => h.imp_left (List.mem_cons_of_mem _)
  | @kept kinds _ l _ _ hl _ ih | @dropped kinds _ l _ _ hl _ ih =>
    by_cases hdots : kinds = [.dots]
    · rw [hdots] at hl
      exact ⟨l, List.mem_cons_self, List.mem_singleton.1 hl⟩
    · rw [List.any_cons, Symbol.isDots, decide_eq_false hdots, Bool.false_or] at hbody
      exact (ih hbody).imp fun _ h => h.imp_left (List.mem_cons_of_mem _)
  | rule _ _ _ _ ih => exact (ih hbody).imp fun _ h => h.imp_left (List.mem_append_right _)
  | absent _ ih | done _ ih => exact ih hbody
  | @present _ _ rest _ _ _ ih =>
    have hrest : rest.any Symbol.isDots = true := hbody
    refine ih ?_
    rw [List.any_append, hrest, Bool.or_true]
  | again _ ih =>
    refine ih ?_
    rw [List.any_append, hbody, Bool.or_true]

theorem depthBehind_of_mem {kinds : List Terminal} {l : Lexeme} {d m : ℕ} (hl : l.kind ∈ kinds)
    (h : (kinds.head?.bind fun t => if kinds.all fun s => s.depthBehind d = t.depthBehind d then
      t.depthBehind d else none) = some m) : l.kind.depthBehind d = some m := by
  obtain ⟨t, -, h⟩ := Option.bind_eq_some_iff.1 h
  split at h
  · rename_i hall
    rw [← h]
    exact of_decide_eq_true (List.all_eq_true.1 hall _ hl)
  · cases h

/-- **Without two dots, what derives closes what it opens, and its commas stand within.** -/
theorem Derives.depthBehind (h : Derives keeps body w ts) (hdots : ∀ l ∈ w, l.kind ≠ .dots) :
    ∀ {d e : ℕ}, Symbol.depthsBehind d body = some e → Criterion.depthBehind d w = some e := by
  induction h with
  | nil => exact id
  | named hl _ ih | kept hl _ ih | dropped hl _ ih =>
    intro d e hbody
    obtain ⟨m, hm, hrest⟩ := Option.bind_eq_some_iff.1 hbody
    rw [Criterion.depthBehind, depthBehind_of_mem hl hm]
    exact ih (List.forall_mem_cons.1 hdots).2 hrest
  | @rule _ n p _ v w _ _ hp hd _ ihbody ih =>
    intro d e hbody
    obtain ⟨hv, hw⟩ := List.forall_mem_append.1 hdots
    obtain ⟨m, hm, hrest⟩ := Option.bind_eq_some_iff.1 hbody
    have hbalanced : n.isBound = false ∧ n.leastDepth ≤ d ∧ m = d := by
      rw [Symbol.depthBehind] at hm
      split at hm
      · cases hm
      rename_i hbound
      split at hm
      · cases hm
      rename_i hdepth
      exact ⟨Bool.eq_false_of_not_eq_true hbound, Nat.le_of_not_lt hdepth, (Option.some.inj hm).symm⟩
    obtain ⟨hbound, hdepth, rfl⟩ := hbalanced
    have hinterval : n ≠ .interval := by
      rintro rfl
      obtain rfl := List.mem_singleton.1 hp
      obtain ⟨l, hl, hkind⟩ := hd.mem_dots (by decide)
      exact hv l hl hkind
    have hown := depthBehind_add (ihbody hv (productions_balanced n hinterval hbound p hp)) (m - n.leastDepth)
    rw [Nat.add_sub_cancel' hdepth] at hown
    rw [depthBehind_append, hown]
    exact ih hw hrest
  | absent _ ih | done _ ih =>
    intro d e hbody
    obtain ⟨m, hm, hrest⟩ := Option.bind_eq_some_iff.1 hbody
    rw [Symbol.depthBehind] at hm
    split at hm
    · cases hm
      exact ih hdots hrest
    · cases hm
  | present _ ih =>
    intro d e hbody
    obtain ⟨m, hm, hrest⟩ := Option.bind_eq_some_iff.1 hbody
    rw [Symbol.depthBehind] at hm
    split at hm
    · rename_i hinner
      cases hm
      refine ih hdots ?_
      rw [Symbol.depthsBehind_append, hinner]
      exact hrest
    · cases hm
  | again _ ih =>
    intro d e hbody
    obtain ⟨m, hm, -⟩ := Option.bind_eq_some_iff.1 hbody
    rw [Symbol.depthBehind] at hm
    split at hm
    · rename_i hinner
      refine ih hdots ?_
      rw [Symbol.depthsBehind_append, hinner]
      exact hbody
    · cases hm

/-- Without two dots, a rule closes what it opens. -/
theorem depthBehind_language (hw : w ∈ n.language) (hdots : ∀ l ∈ w, l.kind ≠ .dots) (hbound : n.isBound = false)
    {d : ℕ} (hdepth : n.leastDepth ≤ d) : depthBehind d w = some d := by
  obtain ⟨ts, hts⟩ := hw
  have hd : Derives false [.rule n] (w ++ []) (ts ++ []) := hts.derives .nil
  rw [List.append_nil] at hd
  refine hd.depthBehind hdots ?_
  rw [Symbol.depthsBehind, Symbol.depthBehind, hbound, if_neg Bool.false_ne_true, if_neg (Nat.not_lt.2 hdepth)]
  rfl

theorem depthBehind_expression (hw : w ∈ Nonterminal.expression.language) (hdots : ∀ l ∈ w, l.kind ≠ .dots) :
    depthBehind 0 w = some 0 := depthBehind_language hw hdots rfl le_rfl

/-! ## Rows of tokens -/

/-- Rows of tokens with commas between them. -/
inductive Separated : List (List Lexeme) → List Lexeme → Prop where
  | last (w : List Lexeme) : Separated [w] w
  | more {w v : List Lexeme} {rows : List (List Lexeme)} {comma : Lexeme} : comma.kind = .comma →
    Separated rows v → Separated (w :: rows) (w ++ comma :: v)

/-- The tokens are expressions with commas between them. -/
structure SplitsInto (w : List Lexeme) (rows : List (List Lexeme)) : Prop where
  separated : Separated rows w
  expressions : ∀ v ∈ rows, v ∈ Nonterminal.expression.language

section Rows

variable {x y : List Lexeme} {comma : Lexeme} {rows rows' : List (List Lexeme)}

/-- No comma stands where nothing is open. -/
theorem depthBehind_comma (h : depthBehind 0 v = some 0) (hcomma : comma.kind = .comma) (u : List Lexeme) :
    depthBehind 0 (v ++ comma :: u) = none := by
  rw [depthBehind_append, h, Option.bind_some, depthBehind, hcomma]
  rfl

/-- An expression ends at the first comma that stands where nothing is open. -/
theorem eq_of_depthBehind (hv : depthBehind 0 v = some 0) (hw : depthBehind 0 w = some 0)
    (hx : ∀ l ∈ x.head?, l.kind = .comma) (hy : ∀ l ∈ y.head?, l.kind = .comma) (h : v ++ x = w ++ y) :
    v = w ∧ x = y := by
  rcases List.append_eq_append_iff.1 h with ⟨u, rfl, rfl⟩ | ⟨u, rfl, rfl⟩
  · cases u with
    | nil => exact ⟨(List.append_nil v).symm, rfl⟩
    | cons l u =>
      rw [depthBehind_comma hv (hx l rfl)] at hw
      cases hw
  · cases u with
    | nil => exact ⟨List.append_nil w, rfl⟩
    | cons l u =>
      rw [depthBehind_comma hw (hy l rfl)] at hv
      cases hv

/-- **Without two dots, tokens are expressions with commas between them in one way only.** -/
theorem SplitsInto.unique (h : SplitsInto w rows) (h' : SplitsInto w rows') (hdots : ∀ l ∈ w, l.kind ≠ .dots) :
    rows = rows' := by
  obtain ⟨hsep, hrows⟩ := h
  induction hsep generalizing rows' with
  | last w =>
    have hw := depthBehind_expression (hrows w List.mem_cons_self) hdots
    obtain ⟨hsep', hrows'⟩ := h'
    cases hsep' with
    | last => rfl
    | @more v u _ comma hkind _ =>
      have hv := depthBehind_expression (hrows' v List.mem_cons_self) (List.forall_mem_append.1 hdots).1
      rw [depthBehind_comma hv hkind] at hw
      cases hw
  | @more w u rows comma hkind hsep ih =>
    obtain ⟨hwdots, hudots⟩ := List.forall_mem_append.1 hdots
    obtain ⟨hwrow, hrows⟩ := List.forall_mem_cons.1 hrows
    have hw := depthBehind_expression hwrow hwdots
    obtain ⟨hsep', hrows'⟩ := h'
    generalize hall : w ++ comma :: u = all at hsep'
    cases hsep' with
    | last =>
      have hboth := depthBehind_expression (hrows' all List.mem_cons_self) (hall ▸ hdots)
      rw [← hall, depthBehind_comma hw hkind] at hboth
      cases hboth
    | @more v x rows' comma' hkind' hsep' =>
      obtain ⟨hvrow, hmore⟩ := List.forall_mem_cons.1 hrows'
      have hv := depthBehind_expression hvrow (List.forall_mem_append.1 (hall ▸ hdots)).1
      obtain ⟨rfl, hbehind⟩ := eq_of_depthBehind hw hv (fun l hl => by cases hl; exact hkind)
        (fun l hl => by cases hl; exact hkind') hall
      obtain ⟨rfl, rfl⟩ := List.cons.inj hbehind
      rw [ih ⟨hsep', hmore⟩ (List.forall_mem_cons.1 hudots).2 hrows]

end Rows

end Criterion

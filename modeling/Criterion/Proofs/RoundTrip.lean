import Criterion.Proofs.Building
import Criterion.Proofs.Literals
import Criterion.Proofs.Operators
import Criterion.Session

/-!
# Data literals evaluate back to the data

The tokens of a literal are read in one way only, whatever ends the literal; the tree is built into an
expression that asks neither the registry nor the scope; and the value of that expression is what was
written.

* `Tree.Denotes`: the value of a tree in every scope.
* `ReadsAs`: tokens that are read as an expression of a value.
* `lexes_literal`: **the tokens of a literal are read as its value.**
* `literal_evaluates_back`: **the literal of data is accepted and evaluates to the data.**
-/

namespace Criterion

open Reader Grammar

/-! ## What trees stand for -/

theorem stringLiteral_enquoted (s : String) : stringLiteral (enquoted s) = .text s := by
  unfold stringLiteral
  rw [enquoted_toList, List.drop_one, List.tail_cons, List.dropLast_concat, String.ofList_toList]

/-- Assignments to different keys stay in their order. -/
theorem Fields.ofPairs_eq_self {fields : Fields} (h : (fields.map (·.1)).Nodup) :
    Fields.ofPairs fields = fields := by
  have hput : ∀ (pairs : Fields) (key : String) (v : Value), key ∉ pairs.map (·.1) →
      Fields.put key v pairs = pairs ++ [(key, v)] := by
    intro pairs key v
    induction pairs with
    | nil => exact fun _ => rfl
    | cons p pairs ih =>
      intro hkey
      rw [List.map_cons, List.mem_cons, not_or] at hkey
      rw [Fields.put, if_neg (Ne.symm hkey.1), ih hkey.2, List.cons_append]
  have hupdate : ∀ (pairs before : Fields), ((before ++ pairs).map (·.1)).Nodup →
      Fields.update before pairs = before ++ pairs := by
    intro pairs
    induction pairs with
    | nil => exact fun before _ => (List.append_nil before).symm
    | cons p pairs ih =>
      intro before hnodup
      have hkey : p.1 ∉ before.map (·.1) := by
        intro hmem
        rw [List.map_append, List.map_cons, List.nodup_append] at hnodup
        exact hnodup.2.2 _ hmem _ List.mem_cons_self rfl
      have hstep : Fields.update before (p :: pairs) = Fields.update (Fields.put p.1 p.2 before) pairs :=
        rfl
      rw [hstep, hput before p.1 p.2 hkey, ih, List.append_assoc, List.singleton_append]
      rwa [List.append_assoc, List.singleton_append]
  exact hupdate fields [] h

/-- The token is a key: a name, or text in quotes. -/
def Token.SpellsKey (key : String) (k : Token) : Prop :=
  k.kind = .identifier ∧ k.text = key ∨ k.kind = .string ∧ k.text = enquoted key

namespace Tree

variable {source : String} {span : Option Span} {t u : Tree} {ts : List Tree} {v : Value}

/-- The tree is built into an expression that has a value in all scopes. -/
def Denotes (v : Value) (t : Tree) : Prop :=
  ∀ source, ∃ e : Expr, (artifacts source [t]).outcome = .ok [.expr e] ∧
    ∀ registry scope, e.eval registry scope = pure v

/-- The tree is built into an entry of a context, whose value is the same in all scopes. -/
def Enters (key : String) (v : Value) (t : Tree) : Prop :=
  ∀ source, ∃ e : Expr, (artifacts source [t]).outcome = .ok [.entry key e] ∧
    ∀ registry scope, e.eval registry scope = pure v

theorem denotes_token {k : Token} {e : Expr} (hk : k.kind.isTrivia = false)
    (h : k.assemble = .ok (.expr e)) (he : ∀ registry scope, e.eval registry scope = pure v) :
    (Tree.token k).Denotes v := by
  intro source
  refine ⟨e, ?_, he⟩
  rw [artifacts_token hk, h]
  rfl

/-- A minus sign turns a number. -/
theorem denotes_negative {i : ℤ} {k : Token} (hkind : k.kind = .minus) (htext : k.text = "-")
    (h : t.Denotes (.whole i)) :
    (Tree.node .arithmeticExpression span [.token k, t]).Denotes (.whole (-i)) := by
  intro source
  obtain ⟨e, hparts, he⟩ := h source
  have hminus : (artifacts source [.token k]).outcome = .ok [.arithmetic .minus] := by
    rw [artifacts_token (by rw [hkind]; rfl)]
    unfold Token.assemble
    rw [hkind, htext]
    rfl
  refine ⟨.unary .minus e, ?_, fun registry scope => ?_⟩
  · rw [artifacts_node (by decide), artifacts_cons_ok hminus hparts]
    rfl
  · have hdifference : Value.arithmetic .minus (.whole 0) (.whole i) = .whole (0 - i) := rfl
    rw [Expr.eval, he, pure_bind, hdifference, Int.zero_sub]

theorem denotes_list {items : List Value} (h : List.Forall₂ Denotes items ts) :
    (Tree.node .list span ts).Denotes (.list items) := by
  intro source
  have hitems : ∃ es : List Expr, (artifacts source ts).outcome = .ok (es.map .expr) ∧
      ∀ registry scope, Expr.evalItems registry es scope = pure items := by
    induction h with
    | nil => exact ⟨[], rfl, fun _ _ => rfl⟩
    | cons hv _ ih =>
      obtain ⟨e, he, heval⟩ := hv source
      obtain ⟨es, hes, hevals⟩ := ih
      refine ⟨e :: es, artifacts_cons_ok he hes, fun registry scope => ?_⟩
      rw [Expr.evalItems, heval, hevals]
      rfl
  obtain ⟨es, hes, hevals⟩ := hitems
  have hlist : ∀ site text, Rule.assemble site text .list (es.map .expr) = .ok (.expr (.list es)) :=
    fun _ _ => Nonterminal.assemble_list (by decide) (operands_of_exprs es)
  refine ⟨.list es, artifacts_node_ok (by decide) hes hlist, fun registry scope => ?_⟩
  rw [Expr.eval, hevals]
  rfl

theorem denotes_context {fields : Fields} (hkeys : (fields.map (·.1)).Nodup)
    (h : List.Forall₂ (fun p => Enters p.1 p.2) fields ts) :
    (Tree.node .context span ts).Denotes (.context fields) := by
  intro source
  have hentries : ∃ es : List (String × Expr),
      (artifacts source ts).outcome = .ok (es.map fun p => .entry p.1 p.2) ∧
        ∀ registry scope, Expr.evalEntries registry es scope = pure fields := by
    clear hkeys
    induction h with
    | nil => exact ⟨[], rfl, fun _ _ => rfl⟩
    | @cons p _ _ _ hp _ ih =>
      obtain ⟨e, he, heval⟩ := hp source
      obtain ⟨es, hes, hevals⟩ := ih
      refine ⟨(p.1, e) :: es, artifacts_cons_ok he hes, fun registry scope => ?_⟩
      rw [Expr.evalEntries, heval, hevals]
      rfl
  obtain ⟨es, hes, hevals⟩ := hentries
  have hcontext : ∀ site text, Rule.assemble site text .context
      (es.map fun p => Artifact.entry p.1 p.2) = .ok (.expr (.context es)) := by
    intro site text
    refine Nonterminal.assemble_of_artifact ?_
    change (do return Expr.context (← (es.map fun p : String × Expr => Artifact.entry p.1 p.2).mapM
      Artifact.entry?)).map Artifact.expr = _
    rw [entries_of_pairs]
    rfl
  refine ⟨.context es, artifacts_node_ok (by decide) hes hcontext, fun registry scope => ?_⟩
  rw [Expr.eval, hevals, pure_bind, Fields.ofPairs_eq_self hkeys]

/-- A key and its value. -/
theorem enters_entry {key : String} {k : Token} (hkey : k.SpellsKey key) (h : t.Denotes v) :
    (Tree.node .contextEntry span [tokenRule .key (.token k), t]).Enters key v := by
  intro source
  obtain ⟨e, hparts, he⟩ := h source
  obtain ⟨hkind, htext⟩ | ⟨hkind, htext⟩ := hkey
  · have htoken : (artifacts source [.token k]).outcome = .ok [.text key] := by
      rw [artifacts_token (by rw [hkind]; rfl)]
      unfold Token.assemble
      rw [hkind, htext]
      rfl
    have hkey : (artifacts source [tokenRule .key (.token k)]).outcome = .ok [.text key] :=
      artifacts_node_ok (by decide) htoken fun _ _ => rfl
    exact ⟨e, artifacts_node_ok (by decide) (artifacts_cons_ok hkey hparts) fun _ _ => rfl, he⟩
  · have htoken : (artifacts source [.token k]).outcome = .ok [.expr (.text key)] := by
      rw [artifacts_token (by rw [hkind]; rfl)]
      unfold Token.assemble
      rw [hkind, htext]
      change Except.ok [Artifact.expr (stringLiteral (enquoted key))] = _
      rw [stringLiteral_enquoted]
    have hkey : (artifacts source [tokenRule .key (.token k)]).outcome = .ok [.expr (.text key)] :=
      artifacts_node_ok (by decide) htoken fun _ _ => rfl
    exact ⟨e, artifacts_node_ok (by decide) (artifacts_cons_ok hkey hparts) fun _ _ => rfl, he⟩

end Tree

/-! ## What tokens are read as -/

/-- Tokens that have one reading in front of what ends an element. A reader may go as deep as there are
tokens. -/
structure Determined (item : ℕ → Reader Tree) (starts : List Terminal) (S : Tree → Prop)
    (w : List Lexeme) : Prop where
  starts : ∃ l tail, w = l :: tail ∧ l.kind ∈ starts
  undotted : ∀ l ∈ w, l.kind ≠ .dots
  sole : ∀ {n : ℕ} {c d : Cursor}, w.length ≤ n → c.Passes w d → c.Ordered → d.Undotted →
    d.HeadIn closers → ∃ t, (item n).Sole c t d ∧ S t

/-- Tokens that are read as an expression of a value. -/
def ReadsAs (v : Value) (w : List Lexeme) : Prop :=
  Determined expression (.minus :: literalStarts) (Tree.Denotes v) w

/-- Tokens that are read as an entry of a context. -/
def ReadsEntry (p : String × Value) (w : List Lexeme) : Prop :=
  Determined (fun n => entry (expression n)) [.identifier, .string] (Tree.Enters p.1 p.2) w

section Reads

variable {l m : Lexeme} {u w : List Lexeme} {v : Value}

/-- What a primary expression is read as, an expression is read as. -/
theorem readsAs_primary {tail : List Lexeme} (hl : l.kind ∈ literalStarts)
    (hundotted : ∀ k ∈ l :: tail, k.kind ≠ .dots)
    (h : ∀ {n : ℕ} {c d : Cursor}, tail.length ≤ n → c.Passes (l :: tail) d → c.Ordered → c.Undotted →
      d.Undotted → ∃ t, (primary (expression n)).Sole c t d ∧ t.Denotes v) : ReadsAs v (l :: tail) := by
  refine ⟨⟨l, tail, rfl, List.mem_cons_of_mem _ hl⟩, hundotted, ?_⟩
  intro n c d hn hpasses ho hu hd
  rw [List.length_cons] at hn
  obtain ⟨n, rfl⟩ : ∃ k, n = k + 1 := ⟨n - 1, by omega⟩
  obtain ⟨t, ht, hdenotes⟩ := h (n := n) (by omega) hpasses ho (hpasses.undotted hundotted hu) hu
  exact ⟨t, sole_expression ht (Cursor.headIn_of_rest hpasses.rest hl) hd, hdenotes⟩

theorem readsAs_token (hl : l.kind ∈ literalTokens) (h : (Tree.token l.token).Denotes v) :
    ReadsAs v [l] := by
  have hdots : ∀ k ∈ literalTokens, k ≠ .dots := by decide
  refine readsAs_primary (List.mem_append_left _ hl) (List.forall_mem_singleton.2 (hdots _ hl)) ?_
  intro n c d _ hpasses _ hc _
  have hplace : d = ⟨l.stop, d.rest⟩ := Cursor.Passes.eq_mk (w := []) hpasses
  rw [hplace]
  exact ⟨_, sole_primary_literal (yields_expression n) hc hpasses.rest hl, h⟩

/-- A minus sign and digits. -/
theorem readsAs_negative {n : ℕ} (hm : m.kind = .minus) (htext : m.text = "-") (hl : l.kind = .number)
    (h : (Tree.token l.token).Denotes (.whole n)) : ReadsAs (.whole (-n)) [m, l] := by
  have hundotted : ∀ k ∈ [m, l], k.kind ≠ .dots := by
    rw [List.forall_mem_cons, List.forall_mem_singleton, hm, hl]
    decide
  refine ⟨⟨m, [l], rfl, by rw [hm]; decide⟩, hundotted, ?_⟩
  intro k c d hk hpasses ho hu hd
  obtain ⟨k, rfl⟩ : ∃ j, k = j + 1 := ⟨k - 1, by rw [List.length_cons] at hk; omega⟩
  have hc : c.rest = m :: l :: d.rest := hpasses.rest
  have hplace : d = ⟨l.stop, d.rest⟩ := Cursor.Passes.eq_mk (w := [m]) hpasses
  have hc' := hpasses.undotted hundotted hu
  have hprimary : (primary (expression k)).Sole ⟨m.stop, l :: d.rest⟩ (.token l.token) d := by
    rw [hplace]
    exact sole_primary_literal (yields_expression k) (hc'.passes (.singleton hc)) rfl
      (by rw [hl]; decide)
  obtain ⟨span, hspan⟩ := sole_negative_expression hc' hc hm hprimary
    (Cursor.headIn_of_rest (c := ⟨m.stop, l :: d.rest⟩) rfl (by rw [hl]; decide)) hd
  exact ⟨_, hspan, Tree.denotes_negative hm htext h⟩

/-! ### Items between brackets -/

section Items

variable {α : Type} {item : ℕ → Reader Tree} {starts : List Terminal} {S : α → Tree → Prop}
  {as : List α} {n : ℕ} {c d : Cursor}

theorem commas_undotted (h : Commas (fun a => Determined item starts (S a)) as u) :
    ∀ l ∈ u, l.kind ≠ .dots := by
  induction h with
  | nil => exact List.forall_mem_nil _
  | cons hl ha _ ih =>
    refine List.forall_mem_cons.2 ⟨by rw [hl]; decide, fun k hk => ?_⟩
    exact (List.mem_append.1 hk).elim (ha.undotted k) (ih k)

/-- What follows an item ends it: the next comma, or what follows all items. -/
theorem commas_close {I : α → List Lexeme → Prop} (h : Commas I as u) (hpasses : c.Passes u d)
    (hd : d.HeadIn closers) : c.HeadIn closers := by
  cases h with
  | nil =>
    intro l hl
    rw [hpasses.rest] at hl
    exact hd l hl
  | cons hl _ _ => exact Cursor.headIn_of_rest hpasses.rest (by rw [hl]; decide)

/-- Items with commas before them are a row, up to the bracket behind them. -/
theorem row_of_commas (h : Commas (fun a => Determined item starts (S a)) as u) :
    ∀ {c d : Cursor}, u.length ≤ n → c.Passes u d → c.Ordered → d.Undotted →
      d.HeadIn [.rightBracket, .rightBrace] →
        ∃ ts, Row (item n) c ts d ∧ List.Forall₂ S as ts := by
  induction h with
  | nil =>
    intro c d _ hpasses _ _ hd
    obtain rfl : c = d := by
      obtain ⟨stop, rest⟩ := c
      obtain ⟨stop', rest'⟩ := d
      obtain ⟨hrest, hstop⟩ := hpasses
      exact congrArg₂ Cursor.mk hstop.symm hrest
    exact ⟨[], .nil (avoids_one hd (by decide)), .nil⟩
  | @cons l a as w u hl ha hcommas ih =>
    intro c d hn hpasses ho hu hd
    rw [List.length_cons, List.length_append] at hn
    obtain ⟨x, hw, hpasses'⟩ := Cursor.Passes.split (u := [l] ++ w) hpasses
    obtain ⟨y, hl', hw⟩ := hw.split
    have hc : c.rest = l :: y.rest := hl'.rest
    have hy : y = ⟨l.stop, y.rest⟩ := Cursor.Passes.eq_mk (w := []) hl'
    have hox := (ho.passes hl').passes hw
    have hclosers : d.HeadIn closers := fun k hk => List.mem_cons_of_mem _ (hd k hk)
    obtain ⟨t, ht, hS⟩ := ha.sole (n := n) (by omega) hw (ho.passes hl')
      (hpasses'.undotted (commas_undotted hcommas) hu) (commas_close hcommas hpasses' hclosers)
    obtain ⟨ts, hrow, hSs⟩ := ih (by omega) hpasses' hox hu hd
    rw [hy] at ht
    exact ⟨t :: ts, .cons hc hl ht hrow, .cons hS hSs⟩

/-- The items between two brackets: the first one and a row of the others. -/
theorem items_enclosed {a : α} (ha : Determined item starts (S a) w)
    (hcommas : Commas (fun a => Determined item starts (S a)) as u)
    (hm : m.kind ∈ [Terminal.rightBracket, .rightBrace]) (hn : w.length + u.length ≤ n)
    (hpasses : c.Passes (l :: (w ++ (u ++ [m]))) d) (ho : c.Ordered) (hu : d.Undotted) :
    ∃ inner t ts x y, c.rest = l :: inner ∧ (∀ k ∈ inner.head?, k.kind ∈ starts) ∧
      (item n).Sole ⟨l.stop, inner⟩ t x ∧ Row (item n) x ts y ∧ y.rest = m :: d.rest ∧
        List.Forall₂ S (a :: as) (t :: ts) := by
  obtain ⟨b, hl, hpasses⟩ := Cursor.Passes.split (u := [l]) hpasses
  obtain ⟨x, hw, hpasses⟩ := hpasses.split
  obtain ⟨y, hrow, hlast⟩ := hpasses.split
  have hb : b = ⟨l.stop, b.rest⟩ := Cursor.Passes.eq_mk (w := []) hl
  have hy : y.rest = m :: d.rest := hlast.rest
  have hclosing : y.HeadIn [.rightBracket, .rightBrace] := Cursor.headIn_of_rest hy hm
  have hclosers : y.HeadIn closers := fun k hk => List.mem_cons_of_mem _ (hclosing k hk)
  have hydots : y.Undotted := by
    refine hlast.undotted (List.forall_mem_singleton.2 ?_) hu
    rcases List.mem_pair.1 hm with hm | hm <;> rw [hm] <;> decide
  have hob := ho.passes hl
  obtain ⟨t, ht, hS⟩ := ha.sole (n := n) (by omega) hw hob
    (hrow.undotted (commas_undotted hcommas) hydots) (commas_close hcommas hrow hclosers)
  obtain ⟨ts, hts, hSs⟩ := row_of_commas (n := n) hcommas (by omega) hrow (hob.passes hw) hydots hclosing
  rw [hb] at ht
  refine ⟨b.rest, t, ts, x, y, hl.rest, ?_, ht, hts, hy, .cons hS hSs⟩
  intro k hk
  obtain ⟨first, tail, rfl, hfirst⟩ := ha.starts
  rw [hw.rest] at hk
  cases hk
  exact hfirst

theorem enclosed_undotted {opening closing : Terminal} (hopening : opening ≠ .dots)
    (hclosing : closing ≠ .dots)
    (h : Enclosed (fun a => Determined item starts (S a)) opening closing as w) :
    ∀ l ∈ w, l.kind ≠ .dots := by
  cases h with
  | empty hl hm =>
    rw [List.forall_mem_cons, List.forall_mem_singleton, hl, hm]
    exact ⟨hopening, hclosing⟩
  | items hl ha hcommas hm =>
    rw [List.forall_mem_cons, List.forall_mem_append, List.forall_mem_append,
      List.forall_mem_singleton, hl, hm]
    exact ⟨hopening, ha.undotted, commas_undotted hcommas, hclosing⟩

end Items

/-- **The elements of a list between brackets are read as the list.** -/
theorem readsAs_list {items : List Value} (h : Enclosed ReadsAs .leftBracket .rightBracket items w) :
    ReadsAs (.list items) w := by
  have hundotted := enclosed_undotted (by decide) (by decide) h
  cases h with
  | @empty l m hl hm =>
    refine readsAs_primary (by rw [hl]; decide) hundotted ?_
    intro n c d _ hpasses _ hc _
    have hrest : c.rest = l :: m :: d.rest := hpasses.rest
    have hplace : d = ⟨m.stop, d.rest⟩ := Cursor.Passes.eq_mk (w := [l]) hpasses
    -- the closing bracket starts no element
    have hblocked : (expression n).Blocked ⟨l.stop, m :: d.rest⟩ := by
      refine expression_blocked (hc.passes (.singleton hrest)) ?_ n
      exact Cursor.headIn_of_rest rfl (by rw [hm]; decide)
    obtain ⟨span, hspan⟩ := sole_empty_list hrest hl hm hblocked
    rw [← hplace] at hspan
    exact ⟨_, sole_primary_list (yields_expression n) hc
      (Cursor.headIn_of_rest hrest (List.mem_singleton.2 hl)) hspan, Tree.denotes_list .nil⟩
  | @items l m v vs w u hl hv hcommas hm =>
    refine readsAs_primary (by rw [hl]; decide) hundotted ?_
    intro n c d hn hpasses ho hc hu
    have hplace : d = ⟨m.stop, d.rest⟩ :=
      Cursor.Passes.eq_mk (w := l :: (w ++ u)) (by simpa using hpasses)
    rw [List.length_append, List.length_append] at hn
    obtain ⟨inner, t, ts, x, y, hrest, hinner, hfirst, hrow, hy, hdenotes⟩ :=
      items_enclosed (n := n) hv hcommas (by rw [hm]; decide) (by omega) hpasses ho hu
    have hopen : ∀ k ∈ inner.head?, k.kind ≠ .rightBracket :=
      avoids_one (c := ⟨l.stop, inner⟩) hinner (by decide)
    obtain ⟨span, hspan⟩ := sole_list (yields_expression n) ho hc hrest hl hopen hfirst hrow hy hm
    rw [← hplace] at hspan
    exact ⟨_, sole_primary_list (yields_expression n) hc
      (Cursor.headIn_of_rest hrest (List.mem_singleton.2 hl)) hspan, Tree.denotes_list hdenotes⟩

/-- A key, a colon and the tokens of a value are read as an entry. -/
theorem readsEntry {key : String} (hkey : l.token.SpellsKey key) (hm : m.kind = .colon) (h : ReadsAs v w) :
    ReadsEntry (key, v) (l :: m :: w) := by
  have hl : l.kind ∈ [Terminal.identifier, .string] :=
    List.mem_pair.2 (hkey.imp And.left And.left)
  have hdots : ∀ k ∈ [Terminal.identifier, .string], k ≠ .dots := by decide
  have hundotted : ∀ k ∈ l :: m :: w, k.kind ≠ .dots := by
    rw [List.forall_mem_cons, List.forall_mem_cons, hm]
    exact ⟨hdots _ hl, by decide, h.undotted⟩
  refine ⟨⟨l, m :: w, rfl, hl⟩, hundotted, ?_⟩
  intro n c d hn hpasses ho hu hd
  rw [List.length_cons, List.length_cons] at hn
  obtain ⟨x, hfront, hw⟩ := Cursor.Passes.split (u := [l, m]) hpasses
  have hrest : c.rest = l :: m :: x.rest := hfront.rest
  have hplace : x = ⟨m.stop, x.rest⟩ := Cursor.Passes.eq_mk (w := [l]) hfront
  obtain ⟨t, ht, hdenotes⟩ := h.sole (n := n) (by omega) hw (ho.passes hfront) hu hd
  rw [hplace] at ht
  obtain ⟨span, hspan⟩ := sole_entry hrest hl hm ht
  exact ⟨_, hspan, Tree.enters_entry hkey hdenotes⟩

theorem entries_undotted {fields : Fields} (h : Enclosed ReadsEntry .leftBrace .rightBrace fields w) :
    ∀ l ∈ w, l.kind ≠ .dots := enclosed_undotted (by decide) (by decide) h

/-- **The entries of a context between braces are a primary expression**, whatever follows it. -/
theorem primary_of_entries {fields : Fields} (hkeys : (fields.map (·.1)).Nodup)
    (h : Enclosed ReadsEntry .leftBrace .rightBrace fields w) {n : ℕ} {c d : Cursor} (hn : w.length ≤ n + 1)
    (hpasses : c.Passes w d) (ho : c.Ordered) (hc : c.Undotted) (hu : d.Undotted) :
    ∃ t, (primary (expression n)).Sole c t d ∧ t.Denotes (.context fields) := by
  cases h with
  | @empty l m hl hm =>
    have hrest : c.rest = l :: m :: d.rest := hpasses.rest
    have hplace : d = ⟨m.stop, d.rest⟩ := Cursor.Passes.eq_mk (w := [l]) hpasses
    obtain ⟨span, hspan⟩ := sole_empty_context (e := expression n) hrest hl hm
    rw [← hplace] at hspan
    exact ⟨_, sole_primary_context (yields_expression n) hc
      (Cursor.headIn_of_rest hrest (List.mem_singleton.2 hl)) hspan, Tree.denotes_context hkeys .nil⟩
  | @items l m p fields w u hl hp hcommas hm =>
    have hplace : d = ⟨m.stop, d.rest⟩ :=
      Cursor.Passes.eq_mk (w := l :: (w ++ u)) (by simpa using hpasses)
    rw [List.length_cons, List.length_append, List.length_append] at hn
    obtain ⟨inner, t, ts, x, y, hrest, hinner, hfirst, hrow, hy, henters⟩ :=
      items_enclosed (n := n) (S := fun p : String × Value => Tree.Enters p.1 p.2) hp hcommas (by rw [hm]; decide)
        (by omega) hpasses ho hu
    have hopen : ∀ k ∈ inner.head?, k.kind ≠ .rightBrace :=
      avoids_one (c := ⟨l.stop, inner⟩) hinner (by decide)
    obtain ⟨span, hspan⟩ :=
      sole_context (yields_entry (yields_expression n)) ho hrest hl hopen hfirst hrow hy hm
    rw [← hplace] at hspan
    exact ⟨_, sole_primary_context (yields_expression n) hc
      (Cursor.headIn_of_rest hrest (List.mem_singleton.2 hl)) hspan, Tree.denotes_context hkeys henters⟩

/-- The entries of a context between braces are read as the context. -/
theorem readsAs_context {fields : Fields} (hkeys : (fields.map (·.1)).Nodup)
    (h : Enclosed ReadsEntry .leftBrace .rightBrace fields w) : ReadsAs (.context fields) w := by
  obtain ⟨l, tail, rfl, hl⟩ : ∃ l tail, w = l :: tail ∧ l.kind = .leftBrace := by
    cases h with
    | empty hl _ => exact ⟨_, _, rfl, hl⟩
    | items hl _ _ _ => exact ⟨_, _, rfl, hl⟩
  refine readsAs_primary (by rw [hl]; decide) (entries_undotted h) ?_
  intro n c d hn hpasses ho hc hu
  exact primary_of_entries hkeys h (Nat.succ_le_succ hn) hpasses ho hc hu

end Reads

/-! ## Literals -/

section Literals

variable {unary : Bool} {v : Value}

/-- A literal of one token. -/
theorem readsAs_literal {kind : Terminal} {text : String} (hkind : kind ∈ literalTokens)
    (h : ∀ span, (Tree.token ⟨kind, text, span⟩).Denotes v) :
    ∀ start stop, ReadsAs v [⟨kind, text, start, stop⟩] :=
  fun _ _ => readsAs_token hkind (h _)

theorem denotes_number {n : ℕ} (hn : n < 10 ^ digitLimit) (span : Option Span) :
    (Tree.token ⟨.number, naturalText n, span⟩).Denotes (.whole n) := by
  have hassemble : Token.assemble ⟨.number, naturalText n, span⟩ = .ok (.expr (.number (.whole n))) := by
    change (numberLiteral (naturalText n)).map Artifact.expr = _
    rw [numberLiteral_naturalText hn]
    rfl
  exact Tree.denotes_token rfl hassemble fun _ _ => rfl

theorem denotes_text (s : String) (span : Option Span) :
    (Tree.token ⟨.string, enquoted s, span⟩).Denotes (.text s) := by
  have hassemble : Token.assemble ⟨.string, enquoted s, span⟩ = .ok (.expr (.text s)) := by
    change Except.ok (Artifact.expr (stringLiteral (enquoted s))) = _
    rw [stringLiteral_enquoted]
  exact Tree.denotes_token rfl hassemble fun _ _ => rfl

theorem lexes_whole {i : Int} (hi : i.natAbs < 10 ^ digitLimit) :
    Lexes unary (integerText i).toList (ReadsAs (.whole i)) := by
  by_cases hneg : i < 0
  · have htext : (integerText i).toList = '-' :: (naturalText i.natAbs).toList := by
      rw [integerText, if_pos hneg, String.toList_append]
      rfl
    have hdigits : Lexes unary (naturalText i.natAbs).toList fun w => ∃ l : Lexeme, w = [l] ∧
        l.kind = .number ∧ (Tree.token l.token).Denotes (.whole i.natAbs) :=
      lexes_natural fun _ _ => ⟨_, rfl, rfl, denotes_number hi _⟩
    have hvalue : i = -(i.natAbs : Int) := by omega
    rw [htext]
    refine lexes_minus hdigits ?_
    rintro m w hm hminus ⟨l, rfl, hl, hdenotes⟩
    rw [hvalue]
    exact readsAs_negative hm hminus hl hdenotes
  · have hvalue : (i.natAbs : Int) = i := by omega
    rw [integerText, if_neg hneg]
    refine lexes_natural (readsAs_literal (by decide) fun span => ?_)
    have hdenotes := denotes_number hi span
    rwa [hvalue] at hdenotes

/-- **The tokens of entries between braces are read as the context**, if those of the values are read as such. -/
theorem lexes_context {fields : Fields} (text : String × Value → String) (hkeys : (fields.map (·.1)).Nodup)
    (hquotable : ∀ p ∈ fields, Quotable p.1) (h : ∀ p ∈ fields, Lexes unary (text p).toList (ReadsAs p.2)) :
    Lexes unary ("\x7b" ++ commaSeparated (fields.map fun p => enquoted p.1 ++ ": " ++ text p) ++ "\x7d").toList
      (ReadsAs (.context fields)) := by
  have hentries : ∀ p ∈ fields, Lexes unary (enquoted p.1 ++ ": " ++ text p).toList (ReadsEntry p) := by
    intro p hp
    have hentry : (enquoted p.1 ++ ": " ++ text p).toList =
        (enquoted p.1).toList ++ ':' :: ' ' :: (text p).toList := by
      rw [String.toList_append, String.toList_append, List.append_assoc]
      rfl
    rw [hentry]
    exact lexes_entry (hquotable p hp) (h p hp) fun l m w hl htext hm => readsEntry (.inr ⟨hl, htext⟩) hm
  have hbraces : ("\x7b" ++ commaSeparated (fields.map fun p => enquoted p.1 ++ ": " ++ text p) ++ "\x7d").toList =
      '\x7b' :: ((commaSeparated (fields.map fun p => enquoted p.1 ++ ": " ++ text p)).toList ++ ['\x7d']) := by
    rw [String.toList_append, String.toList_append]
    rfl
  rw [hbraces]
  exact (lexes_enclosed (fun _ => rfl) rfl rfl (fun _ => rfl) rfl (by decide) hentries).mono
    fun w => readsAs_context hkeys

/-- **The tokens of a literal are read as its value.** -/
theorem lexes_literal (unary : Bool) (h : v.HasLiteral) : Lexes unary v.literal.toList (ReadsAs v) := by
  induction h with
  | null =>
    have hnull : ∀ span, (Tree.token ⟨.keyword .nullWord, "null", span⟩).Denotes .null := fun _ =>
      Tree.denotes_token (e := .null) rfl rfl fun _ _ => rfl
    exact lexes_word (k := .nullWord) (by decide) (readsAs_literal (by decide) hnull)
  | boolean b =>
    cases b with
    | true =>
      have htrue : ∀ span, (Tree.token ⟨.keyword .trueWord, "true", span⟩).Denotes (.boolean true) :=
        fun _ => Tree.denotes_token (e := .boolean true) rfl rfl fun _ _ => rfl
      exact lexes_word (k := .trueWord) (by decide) (readsAs_literal (by decide) htrue)
    | false =>
      have hfalse : ∀ span, (Tree.token ⟨.keyword .falseWord, "false", span⟩).Denotes (.boolean false) :=
        fun _ => Tree.denotes_token (e := .boolean false) rfl rfl fun _ _ => rfl
      exact lexes_word (k := .falseWord) (by decide) (readsAs_literal (by decide) hfalse)
  | @whole i hi => exact lexes_whole hi
  | @text s hs => exact lexes_string hs.quotable (readsAs_literal (by decide) (denotes_text s))
  | @list items _ ih =>
    have hlist : (Value.list items).literal.toList =
        '[' :: ((commaSeparated (items.map Value.literal)).toList ++ [']']) := by
      rw [Value.literal, Value.literalItems_eq, String.toList_append, String.toList_append]
      rfl
    rw [hlist]
    exact (lexes_enclosed (fun _ => rfl) rfl rfl (fun _ => rfl) rfl (by decide) ih).mono
      fun w => readsAs_list
  | @context fields hkeys hplain _ ih =>
    have hcontext : (Value.context fields).literal =
        "\x7b" ++ commaSeparated (fields.map fun p => enquoted p.1 ++ ": " ++ p.2.literal) ++ "\x7d" := by
      rw [Value.literal, Value.literalEntries_eq]
    rw [hcontext]
    exact lexes_context (fun p : String × Value => p.2.literal) hkeys (fun p hp => (hplain p hp).quotable) ih

end Literals

/-! ## Whole sources -/

theorem text_whole {i : Int} (hi : i.natAbs < 10 ^ digitLimit) :
    Number.text (.whole i) = .ok (integerText i) := by
  have htext : integerText? i = some (integerText i) := by
    unfold integerText?
    rw [Nat.pow_eq, if_pos hi]
  unfold Number.text
  simp only [htext]

/-- Data that have a literal can be shown in a trace. -/
theorem shown_of_hasLiteral {v : Value} (h : v.HasLiteral) : ∃ line, v.shown = .ok line := by
  induction h with
  | null => exact ⟨_, rfl⟩
  | boolean b => exact ⟨_, rfl⟩
  | @whole i hi =>
    rw [Value.shown]
    exact ⟨_, text_whole hi⟩
  | text _ => exact ⟨_, rfl⟩
  | @list items _ ih =>
    have hitems : ∀ items : List Value, (∀ v ∈ items, ∃ line, v.shown = .ok line) →
        ∃ parts, Value.shownItems items = .ok parts := by
      intro items
      induction items with
      | nil => exact fun _ => ⟨_, rfl⟩
      | cons v rest ihrest =>
        intro h
        obtain ⟨line, hline⟩ := h v List.mem_cons_self
        obtain ⟨parts, hparts⟩ := ihrest fun u hu => h u (List.mem_cons_of_mem _ hu)
        rw [Value.shownItems, hline, hparts]
        exact ⟨_, rfl⟩
    obtain ⟨parts, hparts⟩ := hitems items ih
    rw [Value.shown, hparts]
    exact ⟨_, rfl⟩
  | @context fields _ _ _ ih =>
    have hfields : ∀ fields : Fields, (∀ p ∈ fields, ∃ line, p.2.shown = .ok line) →
        ∃ parts, Value.shownFields fields = .ok parts := by
      intro fields
      induction fields with
      | nil => exact fun _ => ⟨_, rfl⟩
      | cons p rest ihrest =>
        intro h
        obtain ⟨line, hline⟩ := h p List.mem_cons_self
        obtain ⟨parts, hparts⟩ := ihrest fun q hq => h q (List.mem_cons_of_mem _ hq)
        rw [Value.shownFields, hline, hparts]
        exact ⟨_, rfl⟩
    obtain ⟨parts, hparts⟩ := hfields fields ih
    rw [Value.shown, hparts]
    exact ⟨_, rfl⟩

/-- The last place of a source. -/
theorem passes_all (w : List Lexeme) :
    Cursor.Passes ⟨0, w⟩ w ⟨Cursor.stopAfter 0 w, []⟩ := ⟨(List.append_nil w).symm, rfl⟩

/-- Where one reading uses all tokens, and the others end in front of no comma, a source is read as it alone. -/
theorem parse_of_reading {source : String} {w : List Lexeme} {t : Tree} {kinds : List Terminal}
    (htokens : Tokens false 0 source.toList w)
    (h : (expression (w.length + 1)).Only ⟨0, w⟩ t ⟨Cursor.stopAfter 0 w, []⟩ kinds)
    (hcomma : .comma ∉ kinds) : ∃ span, parse false source = .ok (.node .expressions span [t]) := by
  have hlone : (separated (expression (w.length + 1))).Only ⟨0, w⟩ [t] ⟨Cursor.stopAfter 0 w, []⟩
      kinds := by
    have hstep : ∀ (items : List Tree) (x : Cursor), (∀ l ∈ x.rest.head?, l.kind ≠ .comma) →
        (itemStep (expression (w.length + 1)) items).Blocked x :=
      fun _ _ hx => (blocked_skip hx).bind _
    have hend := hstep [t] ⟨Cursor.stopAfter 0 w, []⟩ fun l hl => absurd hl (Option.not_mem_none l)
    refine h.bind ((sole_chain hend).only _) (List.Subset.refl _) le_rfl fun y hy => ?_
    exact (sole_chain (hstep [y.1] y.2 (avoids_one hy.headIn hcomma))).stays
  obtain ⟨span, hspan⟩ := Only.rule .expressions hlone
  have hall : (readings false w).complete? = some (.node .expressions span [t]) := by
    unfold readings expressions
    exact hspan.complete rfl
  refine ⟨span, ?_⟩
  rw [parse_eq_ok, lex_eq_iff.2 htokens]
  exact ⟨rfl, hall⟩

/-- It is then built into the expression of that reading. -/
theorem parse_of_built {source : String} {e : Expr} {w : List Lexeme} {t : Tree} {kinds : List Terminal}
    (htokens : Tokens false 0 source.toList w)
    (h : (expression (w.length + 1)).Only ⟨0, w⟩ t ⟨Cursor.stopAfter 0 w, []⟩ kinds)
    (hcomma : .comma ∉ kinds) (hbuilt : (Tree.artifacts source [t]).outcome = .ok [.expr e]) :
    ∃ t, parse false source = .ok t ∧ (t.build source).outcome = .ok (some (.expr (.list [e]))) := by
  obtain ⟨span, hparse⟩ := parse_of_reading htokens h hcomma
  refine ⟨_, hparse, ?_⟩
  rw [build_node (by decide), hbuilt]
  rfl

/-- Where that reading stands for a value, the expression has this value. -/
theorem parse_of_only {source : String} {v : Value} {w : List Lexeme} {t : Tree} {kinds : List Terminal}
    (htokens : Tokens false 0 source.toList w)
    (h : (expression (w.length + 1)).Only ⟨0, w⟩ t ⟨Cursor.stopAfter 0 w, []⟩ kinds)
    (hcomma : .comma ∉ kinds) (hdenotes : t.Denotes v) :
    ∃ t e, parse false source = .ok t ∧
      (t.build source).outcome = .ok (some (.expr (.list [e]))) ∧
        ∀ registry scope, e.eval registry scope = pure v := by
  obtain ⟨e, hbuilt, he⟩ := hdenotes source
  obtain ⟨t, hparse, hbuild⟩ := parse_of_built htokens h hcomma hbuilt
  exact ⟨t, e, hparse, hbuild, he⟩

/-- **A source whose tokens are read as a value is accepted**, and it is built into an expression of that
value alone. -/
theorem parse_of_readsAs {source : String} {v : Value} {w : List Lexeme}
    (htokens : Tokens false 0 source.toList w) (hw : ReadsAs v w) :
    ∃ t e, parse false source = .ok t ∧
      (t.build source).outcome = .ok (some (.expr (.list [e]))) ∧
        ∀ registry scope, e.eval registry scope = pure v := by
  obtain ⟨t, ht, hdenotes⟩ := hw.sole (n := w.length + 1) (Nat.le_succ _) (passes_all w) htokens.ordered
    (List.forall_mem_nil _) fun l hl => absurd hl (Option.not_mem_none l)
  exact parse_of_only htokens (ht.only []) List.not_mem_nil hdenotes

/-- A line that is left does not fail. -/
theorem Settings.note_outcome (s : Settings) (text : String) : (s.note text).outcome = .ok () := by
  unfold Settings.note
  split <;> rfl

/-- The answer of a source whose expressions have a value. Only a trace has to show it. -/
theorem evaluate_outcome {s : Settings} {source : String} {bindings : Fields} {t : Tree} {a : Artifact}
    {v : Value} (ht : parse false source = .ok t) (ha : (t.build source).outcome = .ok (some a))
    (hv : (a.eval s.registry (.ofFields bindings)).outcome = .ok v)
    (hshown : s.detail = 0 ∨ ∃ line, v.single.shown = .ok line) :
    (evaluate s source bindings).outcome = .ok v.single := by
  have hanswer : ∀ text, (s.noteAnswer text v.single).outcome = .ok () := by
    intro text
    unfold Settings.noteAnswer
    split
    · rename_i hdetail
      obtain hzero | ⟨line, hline⟩ := hshown
      · omega
      · rw [hline]
        rfl
    · rfl
  have hbuild : (s.build source t).outcome = .ok (some a) := ha
  have haction : (a.eval s.registry (.ofFields bindings)).action.outcome = .ok v := hv
  unfold evaluate
  rw [Run.bind_of_ok (s.note_outcome _), Run.bind_of_ok (a := t) (by rw [ht]; rfl), Run.bind_of_ok hbuild]
  dsimp only
  rw [Run.bind_of_ok haction, Run.bind_of_ok (hanswer _)]
  rfl

/-- **The literal of data is accepted, and it evaluates to the data**, whatever names the registry and the
bindings give to values. -/
theorem literal_evaluates_back {v : Value} (h : v.HasLiteral) : (∃ t, parse false v.literal = .ok t) ∧
    ∀ (s : Settings) (bindings : Fields), (evaluate s v.literal bindings).outcome = .ok v := by
  have hend : Tokens false (0 + v.literal.toList.length) [] [] := .done
  have hclosed : Closed [] := fun c hc => absurd hc (Option.not_mem_none c)
  obtain ⟨w, htokens, hw⟩ := (lexes_literal false h).tokens hclosed hend
  rw [List.append_nil, List.append_nil] at htokens
  obtain ⟨t, e, hparse, hbuild, he⟩ := parse_of_readsAs htokens hw
  refine ⟨⟨t, hparse⟩, fun s bindings => ?_⟩
  have hvalue : ((Artifact.expr (.list [e])).eval s.registry (.ofFields bindings)).outcome =
      .ok (.list [v]) := by
    rw [Artifact.eval, Expr.eval, Expr.evalItems, he]
    rfl
  exact evaluate_outcome hparse hbuild hvalue (.inr (shown_of_hasLiteral h))

theorem nested_literal_evaluates_back :
    (Value.context [("//", .list [.whole (-5), .text "], null"]), ("a", .context [])]).literal =
        "\x7b\"//\": [-5, \"], null\"], \"a\": \x7b\x7d\x7d" ∧
      (evaluate .standard "\x7b\"//\": [-5, \"], null\"], \"a\": \x7b\x7d\x7d" [("a", .null)]).outcome =
        .ok (.context [("//", .list [.whole (-5), .text "], null"]), ("a", .context [])]) := by
  have hsmall : Int.natAbs (-5) < 10 ^ digitLimit :=
    lt_of_lt_of_le (by decide) (Nat.le_self_pow (by decide) 10)
  have hitems : Value.HasLiteral (.list [.whole (-5), .text "], null"]) := by
    refine .list (List.forall_mem_cons.2 ⟨.whole hsmall, List.forall_mem_singleton.2 (.text ?_)⟩)
    decide
  have hvalues : ∀ p ∈ [("//", Value.list [.whole (-5), .text "], null"]), ("a", .context [])],
      p.2.HasLiteral :=
    List.forall_mem_cons.2 ⟨hitems, List.forall_mem_singleton.2
      (.context List.nodup_nil (List.forall_mem_nil _) (List.forall_mem_nil _))⟩
  have hkeys : ∀ p ∈ [("//", Value.list [.whole (-5), .text "], null"]), ("a", .context [])],
      Unescaped p.1 := by
    rw [List.forall_mem_cons, List.forall_mem_singleton]
    decide
  have hliteral : (Value.context [("//", .list [.whole (-5), .text "], null"]),
      ("a", .context [])]).literal = "\x7b\"//\": [-5, \"], null\"], \"a\": \x7b\x7d\x7d" := by
    rfl
  obtain ⟨-, hback⟩ := literal_evaluates_back (.context (by decide) hkeys hvalues)
  rw [hliteral] at hback
  exact ⟨hliteral, hback .standard _⟩

end Criterion

import Criterion.Proofs.Deeds
import Criterion.Proofs.Holding

/-!
# Acts that run as values tell

An act in memory runs as a run of values does: it leaves the same events, it fails in the same way, and what it
answers with is told by the memory that it leaves, which has only grown. Of a run that ends where values do not
tell how it goes on nothing is said.

* `Act.RunsAs`: an act runs as a run does.
* `Act.RunsAs.bind`: so do acts one after the other.
* `call_runs`: **so does a call of a function that is no test.**
-/

namespace Criterion

/-- The same failure, or outcomes that stand in a relation. -/
inductive EndsAs {α β : Type} (R : α → β → Prop) : Except Failure α → Except Failure β → Prop where
  | ok {a : α} {b : β} : R a b → EndsAs R (.ok a) (.ok b)
  | error (f : Failure) : EndsAs R (.error f) (.error f)

theorem EndsAs.mono {α β : Type} {R R' : α → β → Prop} {x : Except Failure α} {y : Except Failure β}
    (h : EndsAs R x y) (hR : ∀ a b, R a b → R' a b) : EndsAs R' x y := by
  cases h with
  | ok hab => exact .ok (hR _ _ hab)
  | error f => exact .error f

/-- In a memory, an act runs as a run does: the memory grows, the events are the same, and the outcomes stand in a
relation that the memory tells. This is so unless the run ends where values do not tell how it goes on. -/
def Act.RunsAs {ε α β : Type} (m : Memory) (x : Act ε α) (r : Run ε β) (Q : Memory → α → β → Prop) : Prop :=
  r.outcome ≠ .error .beyond →
    m.Grows (x m).1 ∧ (x m).2.events = r.events ∧ EndsAs (Q (x m).1) (x m).2.outcome r.outcome

section Acts

variable {ε δ α β γ σ : Type} {m : Memory}

namespace Act

/-! ## Reading -/

section Reading

variable {x : Act ε α} {k : α → Act ε γ} {h : Held} {v : Value} {hs : List Held} {vs : List Value}

/-- What leaves no events and the memory as it is. -/
theorem bind_read {a : α} (hx : x m = (m, Run.pure a)) : (x >>= k) m = k a m := by
  show Act.bind x k m = _
  unfold Act.bind
  rw [hx]
  rfl

theorem bind_reads (f : Memory → α) : (Act.reads f >>= k) m = k (f m) m := bind_read rfl

theorem bind_value {k : Value → Act ε γ} (hv : m.Tells h v) : (Act.value h >>= k) m = k v m := by
  refine bind_read ?_
  show (m, Run.ofExcept (m.value h)) = _
  rw [hv.value]
  rfl

theorem bind_values {k : List Value → Act ε γ} (hvs : m.TellsAll hs vs) : (Act.values hs >>= k) m = k vs m := by
  refine bind_read ?_
  show (m, Run.ofExcept (m.values hs)) = _
  rw [hvs.values]
  rfl

end Reading

namespace RunsAs

variable {x : Act ε α} {r : Run ε β} {Q Q' : Memory → α → β → Prop}

/-! ## Steps -/

theorem of_eq {y : Act ε α} (hxy : x m = y m) (hy : RunsAs m y r Q) : RunsAs m x r Q := by
  unfold RunsAs
  rw [hxy]
  exact hy

theorem mono (hx : RunsAs m x r Q) (hQ : ∀ m' a b, m.Grows m' → Q m' a b → Q' m' a b) : RunsAs m x r Q' := by
  intro htold
  obtain ⟨hgrows, hevents, hends⟩ := hx htold
  exact ⟨hgrows, hevents, hends.mono fun a b => hQ _ a b hgrows⟩

theorem pure {a : α} {b : β} (hab : Q m a b) : RunsAs m (pure a) (pure b : Run ε β) Q :=
  fun _ => ⟨.refl m, rfl, .ok hab⟩

theorem fail (f : Failure) : RunsAs m (Act.fail f) (Run.fail f : Run ε β) Q := fun _ => ⟨.refl m, rfl, .error f⟩

theorem beyond (hr : r.outcome = .error .beyond) : RunsAs m x r Q := fun htold => absurd hr htold

/-- What a run tells, after what a run tells. -/
theorem bind {k : α → Act ε γ} {l : β → Run ε δ} {S : Memory → γ → δ → Prop} (hx : RunsAs m x r Q)
    (hk : ∀ m' a b, m.Grows m' → Q m' a b → RunsAs m' (k a) (l b) S) : RunsAs m (x >>= k) (r >>= l) S := by
  intro htold
  cases hr : r.outcome with
  | error f =>
    have hbeyond : r.outcome ≠ .error .beyond := by
      rw [Run.bind_of_error hr] at htold
      intro hf
      cases hr.symm.trans hf
      exact htold rfl
    obtain ⟨hgrows, hevents, hends⟩ := hx hbeyond
    rw [hr] at hends
    cases hout : (x m).2.outcome with
    | ok a =>
      rw [hout] at hends
      cases hends
    | error g =>
      rw [hout] at hends
      cases hends
      rw [Act.bind_of_error hout, Run.bind_of_error hr]
      exact ⟨hgrows, hevents, .error f⟩
  | ok b =>
    obtain ⟨hgrows, hevents, hends⟩ := hx (by rw [hr]; nofun)
    rw [hr] at hends
    cases hout : (x m).2.outcome with
    | error g =>
      rw [hout] at hends
      cases hends
    | ok a =>
      rw [hout] at hends
      obtain ⟨hab⟩ := hends
      rw [Run.bind_of_ok hr] at htold
      obtain ⟨hnext, hafter, hlast⟩ := hk _ a b hgrows hab htold
      rw [Act.bind_of_ok hout, Run.bind_of_ok hr]
      exact ⟨hgrows.trans hnext, congrArg₂ (· ++ ·) hevents hafter, hlast⟩

theorem ofEnds {c : Except Failure α} {d : Except Failure β} (h : EndsAs (Q m) c d) :
    RunsAs m (Act.ofExcept c : Act ε α) (Run.ofExcept d : Run ε β) Q := fun _ => ⟨.refl m, rfl, h⟩

theorem ofRun_bind {r : Run ε α} {k : α → Act ε γ} {l : α → Run ε δ} {S : Memory → γ → δ → Prop}
    (hk : ∀ a, r.outcome = .ok a → RunsAs m (k a) (l a) S) : RunsAs m (Act.ofRun r >>= k) (r >>= l) S := by
  intro htold
  cases hr : r.outcome with
  | error f =>
    rw [Act.bind_of_error hr, Run.bind_of_error hr]
    exact ⟨.refl m, rfl, .error f⟩
  | ok a =>
    rw [Run.bind_of_ok hr] at htold
    obtain ⟨hgrows, hevents, hends⟩ := hk a hr htold
    rw [Act.bind_of_ok hr, Run.bind_of_ok hr]
    exact ⟨hgrows, congrArg (r.events ++ ·) hevents, hends⟩

theorem ofExcept_bind {c : Except Failure α} {k : α → Act ε γ} {l : α → Run ε δ} {S : Memory → γ → δ → Prop}
    (hk : ∀ a, c = .ok a → RunsAs m (k a) (l a) S) :
    RunsAs m (Act.ofExcept c >>= k) (Run.ofExcept c >>= l) S := ofRun_bind hk

end RunsAs

end Act

end Acts

/-! ## Lists -/

section Functions

variable {ε : Type} {m : Memory} {h : Held} {v : Value} {hs : List Held} {vs : List Value}

open Act

/-- A new list of what is held is the list of the values. -/
theorem alloc_runs (hvs : m.TellsAll hs vs) :
    RunsAs m (Act.alloc hs) (pure (.list vs) : Run ε Value) Memory.Tells :=
  fun _ => ⟨Memory.grows_alloc m hs, rfl, .ok (Memory.tells_alloc hvs)⟩

theorem plain_runs (hv : v.isListless = true) : RunsAs m (pure (.plain v)) (pure v : Run ε Value) Memory.Tells :=
  .pure (.plain hv)

theorem hold_runs (hv : v.probeFree = true) : RunsAs m (Act.hold v) (pure v : Run ε Value) Memory.Tells := by
  obtain ⟨hgrows, htells⟩ := Memory.hold_tells v m hv
  exact fun _ => ⟨hgrows, rfl, .ok htells⟩

theorem listless_of_flat (hv : v.isNested = false) : v.isListless = true := by
  cases v with
  | list _ | context _ | probe _ => cases hv
  | method receiver name => cases receiver <;> first | rfl | cases hv
  | _ => rfl

/-- Data has no tests in it. -/
theorem probeFree_of_flat (hv : v.isNested = false) : v.probeFree = true := by
  cases v with
  | list _ | context _ | probe _ => cases hv
  | method receiver name => cases receiver <;> first | rfl | cases hv
  | _ => rfl

/-! ## Builtins -/

/-- What is computed from the values of the arguments, and held. -/
theorem computed_runs (f : List Value → Except Failure Value) (hvs : m.TellsAll hs vs)
    (hfree : ∀ v, f vs = .ok v → v.probeFree = true) :
    RunsAs m (do
      let vs ← Act.values hs
      Act.hold (← Act.ofExcept (f vs))) (Run.ofExcept (f vs) : Run ε Value) Memory.Tells := by
  refine .of_eq (bind_values hvs) ?_
  have hpure : (Run.ofExcept (f vs) : Run ε Value) = Run.ofExcept (f vs) >>= pure := by
    cases f vs <;> rfl
  rw [hpure]
  exact .ofExcept_bind fun v hv => hold_runs (hfree v hv)

/-- What is held for a list is a list. -/
theorem list_of_tells {ws : List Value} (hv : m.Tells h (.list ws)) :
    ∃ place, h = .list place ∧ m.TellsAll (m.items place) ws := by
  obtain ⟨place, rfl⟩ := Memory.held_of_list hv
  obtain ⟨us, hus, hall⟩ := Memory.tells_list hv
  cases hus
  exact ⟨place, rfl, hall⟩

theorem concatenate_tells (hvs : m.TellsAll hs vs) :
    (Held.concatenate m hs = none ∧ Library.concatenate? vs = none) ∨
      ∃ gs ws, Held.concatenate m hs = some gs ∧ Library.concatenate? vs = some ws ∧ m.TellsAll gs ws := by
  induction hvs with
  | nil => exact .inr ⟨[], [], rfl, rfl, .nil⟩
  | @cons h v hs vs hv hvs ih =>
    cases h with
    | list place =>
      obtain ⟨ws, rfl, hall⟩ := Memory.tells_list hv
      unfold Held.concatenate Library.concatenate?
      rcases ih with ⟨hheld, htold⟩ | ⟨gs, us, hheld, htold, hrest⟩
      · rw [hheld, htold]
        exact .inl ⟨rfl, rfl⟩
      · rw [hheld, htold]
        exact .inr ⟨_, _, rfl, rfl, List.rel_append hall hrest⟩
    | _ =>
      refine .inl ⟨rfl, ?_⟩
      unfold Library.concatenate?
      split
      · rename_i heq
        cases heq
      · rename_i heq
        cases heq
        obtain ⟨_, hlist, -⟩ := list_of_tells hv
        cases hlist
      · rfl

theorem distinct_tells (kept : List (Held × Value)) (pairs : List (Held × Value)) :
    (Held.distinct kept pairs).map (·.2) = (pairs.map (·.2)).foldl
        (fun kept v => if v.isAmong kept then kept else kept ++ [v]) (kept.map (·.2)) ∧
      ∀ p ∈ Held.distinct kept pairs, p ∈ kept ∨ p ∈ pairs := by
  induction pairs generalizing kept with
  | nil => exact ⟨rfl, fun p hp => .inl hp⟩
  | cons p rest ih =>
    obtain ⟨hvalues, hmem⟩ := ih (if p.2.isAmong (kept.map (·.2)) then kept else kept ++ [p])
    refine ⟨hvalues.trans ?_, fun q hq => ?_⟩
    · rw [List.map_cons, List.foldl_cons]
      congr 1
      split
      · rfl
      · exact List.map_append
    · rcases hmem q hq with hkept | hrest
      · split at hkept
        · exact .inl hkept
        · rcases List.mem_append.1 hkept with hkept | hlast
          · exact .inl hkept
          · exact .inr (List.mem_cons.2 (.inl (List.mem_singleton.1 hlast)))
      · exact .inr (List.mem_cons_of_mem _ hrest)

theorem tellsAll_of_pairs (pairs : List (Held × Value)) (hpairs : ∀ p ∈ pairs, m.Tells p.1 p.2) :
    m.TellsAll (pairs.map (·.1)) (pairs.map (·.2)) := by
  induction pairs with
  | nil => exact .nil
  | cons p rest ih =>
    obtain ⟨hp, hrest⟩ := List.forall_mem_cons.1 hpairs
    exact .cons hp (ih hrest)

theorem leaves_of_not_list (hv : ∀ ws, v ≠ .list ws) : Library.leaves v = [v] := by
  cases v with
  | list ws => exact absurd rfl (hv ws)
  | _ => rfl

/-- The leaves of what is held in turn, if those of the lists in it are told. -/
theorem leavesBy_tells {inner : Nat → Except Failure (List Held)} {bound : Nat} (hbound : bound ≤ m.places.length)
    (hinner : ∀ place ws, m.Holds bound (.list place) (.list ws) →
      ∃ gs, inner place = .ok gs ∧ m.TellsAll gs (Library.flatten ws)) (hvs : m.HoldsAll bound hs vs) :
    ∃ gs, Held.leavesBy inner hs = .ok gs ∧ m.TellsAll gs (Library.flatten vs) := by
  induction hvs with
  | nil => exact ⟨[], rfl, .nil⟩
  | @cons h v hs vs hv hvs ih =>
    obtain ⟨gs, hrest, htells⟩ := ih
    by_cases hlist : ∃ ws, v = .list ws
    · obtain ⟨ws, rfl⟩ := hlist
      obtain ⟨place, rfl, -⟩ := list_of_tells (hv.mono (.refl m) hbound)
      obtain ⟨ls, hfirst, hleaves⟩ := hinner place ws hv
      refine ⟨ls ++ gs, ?_, List.rel_append hleaves htells⟩
      unfold Held.leavesBy
      rw [hfirst, hrest]
      rfl
    · have hv' : ∀ ws, v ≠ .list ws := fun ws hws => hlist ⟨ws, hws⟩
      refine ⟨h :: gs, ?_, ?_⟩
      · cases h with
        | list place =>
          obtain ⟨-, _, ws, -, -, hws⟩ := Memory.holds_list.1 hv
          exact absurd hws (hv' ws)
        | _ =>
          unfold Held.leavesBy
          rw [hrest]
          rfl
      · rw [Library.flatten, leaves_of_not_list hv']
        exact .cons (hv.mono (.refl m) hbound) htells

/-- The leaves of a list that is held. -/
theorem leaves_tells (depth : Nat) : ∀ {bound place : Nat} {ws : List Value}, bound ≤ depth →
    bound ≤ m.places.length → m.Holds bound (.list place) (.list ws) →
      ∃ gs, Held.leaves m depth place = .ok gs ∧ m.TellsAll gs (Library.flatten ws) := by
  induction depth with
  | zero =>
    intro bound place ws hdepth _ hlist
    obtain ⟨hlt, -⟩ := Memory.holds_list.1 hlist
    omega
  | succ depth ih =>
    intro bound place ws hdepth hbound hlist
    obtain ⟨hlt, hs, us, hplace, hall, hus⟩ := Memory.holds_list.1 hlist
    cases hus
    have hitems : m.items place = hs := by
      unfold Memory.items
      rw [hplace]
      rfl
    unfold Held.leaves
    rw [hitems]
    exact leavesBy_tells (by omega) (fun inside us hinside => ih (by omega) (by omega) hinside) hall

/-- What a builtin answers has no tests in it, unless it takes lists apart. -/
theorem apply_probeFree {b : Builtin} (happend : b = .append → ∀ ws us, vs ≠ .list ws :: us)
    (hconcatenate : b ≠ .concatenate) (hlone : b ∈ [.reverse, .distinctValues, .flatten] → ∀ ws, vs ≠ [.list ws])
    (h : b.apply vs = .ok v) : v.probeFree = true := by
  by_cases hb : b ∈ listBuiltins
  · unfold Builtin.apply at h
    split at h
    all_goals first
      | exact absurd hb (by decide)
      | exact absurd rfl hconcatenate
      | exact absurd rfl (hlone (by decide) _)
      | exact absurd rfl (happend rfl _ _)
      | cases h
    · -- the positions of a value
      rename_i ws w
      generalize Library.positions w 1 ws = places
      show Value.probeFreeItems _ = true
      induction places with
      | nil => rfl
      | cons place rest ih => exact ih
    · rfl
  · exact probeFree_of_flat (apply_flat hb h)

theorem tellsAll_first {place : Nat} (hvs : m.TellsAll (.list place :: hs) vs) :
    ∃ ws us, vs = .list ws :: us ∧ m.TellsAll (m.items place) ws ∧ m.TellsAll hs us := by
  cases hvs with
  | cons hlist hrest =>
    obtain ⟨ws, rfl, hall⟩ := Memory.tells_list hlist
    exact ⟨ws, _, rfl, hall, hrest⟩

theorem tellsAll_lone {place : Nat} (hvs : m.TellsAll [.list place] vs) :
    ∃ ws, vs = [.list ws] ∧ m.TellsAll (m.items place) ws := by
  obtain ⟨ws, us, rfl, hall, hrest⟩ := tellsAll_first hvs
  cases hrest
  exact ⟨ws, rfl, hall⟩

/-- **Builtins answer in memory as they do on values.** -/
theorem apply_runs (b : Builtin) (hvs : m.TellsAll hs vs) :
    RunsAs m (Held.apply b hs) (Run.ofExcept (b.apply vs) : Run ε Value) Memory.Tells := by
  unfold Held.apply
  split
  · rename_i place
    obtain ⟨ws, rfl, hall⟩ := tellsAll_lone hvs
    refine .of_eq (bind_reads _) ?_
    rw [hall.length_eq]
    exact plain_runs rfl
  · rename_i place rest
    obtain ⟨ws, us, rfl, hall, hrest⟩ := tellsAll_first hvs
    exact .of_eq (bind_reads _) (alloc_runs (List.rel_append hall hrest))
  · refine .of_eq (bind_reads _) ?_
    show RunsAs m _ (pure (Value.ofOption ((Library.concatenate? vs).map .list))) _
    rcases concatenate_tells hvs with ⟨hheld, htold⟩ | ⟨gs, ws, hheld, htold, hall⟩
    · rw [hheld, htold]
      exact plain_runs rfl
    · rw [hheld, htold]
      exact alloc_runs hall
  · rename_i place
    obtain ⟨ws, rfl, hall⟩ := tellsAll_lone hvs
    exact .of_eq (bind_reads _) (alloc_runs (List.rel_reverse hall))
  · rename_i place
    obtain ⟨ws, rfl, hall⟩ := tellsAll_lone hvs
    refine .of_eq ((bind_reads _).trans (bind_values hall)) ?_
    obtain ⟨hvalues, hmem⟩ := distinct_tells [] ((m.items place).zip ws)
    rw [List.map_snd_zip (Nat.le_of_eq hall.length_eq.symm)] at hvalues
    have hpairs := tellsAll_of_pairs (m := m) (Held.distinct [] ((m.items place).zip ws)) fun p hp =>
      (Memory.holdsAll_iff.1 hall).2 p ((hmem p hp).resolve_left List.not_mem_nil)
    rw [hvalues] at hpairs
    exact alloc_runs hpairs
  · rename_i place
    obtain ⟨ws, rfl, hall⟩ := tellsAll_lone hvs
    cases hvs with
    | cons hlist _ =>
      obtain ⟨gs, hleaves, hgs⟩ := leaves_tells _ (Nat.le_refl _) (Nat.le_refl _) hlist
      refine .of_eq (bind_reads _) ?_
      rw [hleaves]
      exact alloc_runs hgs
  · rename_i hconcatenate _ happend hreverse hdistinct hflatten
    refine computed_runs b.apply hvs fun v => apply_probeFree ?_ hconcatenate ?_
    · rintro hb ws us rfl
      cases hvs with
      | cons hlist _ =>
        obtain ⟨place, rfl, -⟩ := list_of_tells hlist
        exact happend place _ hb rfl
    · rintro hb ws rfl
      cases hvs with
      | cons hlist hnil =>
        cases hnil
        obtain ⟨place, rfl, -⟩ := list_of_tells hlist
        rcases List.mem_cons.1 hb with hb | hb
        · exact hreverse place hb rfl
        · rcases List.mem_pair.1 hb with hb | hb
          · exact hdistinct place hb rfl
          · exact hflatten place hb rfl

/-! ## Calls -/

theorem find_runs {place : Nat} {ws : List Value} (hlist : m.TellsAll (m.items place) ws) (hv : m.Tells h v) :
    RunsAs m (Held.find place h 0 (m.items place).length)
      (Run.ofExcept ((ws.findIdx? (·.eqv v)).elim (.error .absentItem) .ok) : Run ε Nat) fun _ i j => i = j := by
  have hfound : Held.firstAt v ws 0 (m.items place).length = ws.findIdx? (·.eqv v) := by
    unfold Held.firstAt
    rw [hlist.length_eq, List.take_length, List.drop_zero]
    simp
  refine .of_eq ((bind_reads _).trans ((bind_values hlist).trans (bind_value hv))) ?_
  rw [hfound]
  cases ws.findIdx? (·.eqv v) with
  | none => exact .fail _
  | some i => exact .pure rfl

/-- A list's own function answers in memory as values tell, unless it may change the list. -/
theorem listFunction_runs {place : Nat} {ws : List Value} (name : String)
    (hlist : m.TellsAll (m.items place) ws) (hvs : m.TellsAll hs vs) :
    RunsAs m (Held.listFunction place name hs)
      (Run.ofExcept ((Value.list ws).callMethod name vs) : Run ε Value) Memory.Tells := by
  have hmethod : (Value.list ws).callMethod name vs =
      if (Value.listArguments name).contains vs.length then Value.listMethod ws name vs
      else .error .misusedCall := rfl
  rw [hmethod]
  refine .of_eq (bind_reads _) ?_
  split
  case h_4 =>
    cases hvs with
    | cons hv hnil =>
      cases hnil
      exact .of_eq ((bind_value hv).trans (bind_values hlist)) (plain_runs rfl)
  case h_6 =>
    cases hvs with
    | @cons _ v _ _ hv hnil =>
      cases hnil
      have hindex : (Run.ofExcept (Value.listMethod ws "index" [v]) : Run ε Value) =
          (do return Value.whole (← Run.ofExcept
            ((ws.findIdx? (·.eqv v)).elim (.error .absentItem) .ok : Except Failure Nat))) := by
        have htold : Value.listMethod ws "index" [v] =
            (ws.findIdx? (·.eqv v)).elim (.error .absentItem) fun i => .ok (.whole i) := rfl
        rw [htold]
        cases ws.findIdx? (·.eqv v) <;> rfl
      show RunsAs m _ (Run.ofExcept (Value.listMethod ws "index" [v])) _
      rw [hindex]
      refine (find_runs hlist hv).bind fun m' i j _ hij => ?_
      rw [hij]
      exact plain_runs rfl
  case h_15 =>
    -- no function takes as many arguments
    have hrefused : (Value.listArguments name).contains vs.length = false := by
      rw [← hvs.length_eq]
      unfold Value.listArguments
      rcases hs with _ | ⟨h₁, _ | ⟨h₂, _ | ⟨h₃, _ | ⟨h₄, hs⟩⟩⟩⟩ <;> split <;> simp_all
    rw [hrefused]
    exact .fail _
  -- the others change the list, make a new one or look in a part of it
  all_goals
    refine .beyond ?_
    rcases hvs with _ | ⟨-, _ | ⟨-, _ | ⟨-, _ | _⟩⟩⟩
    rfl

/-- A function that a value offers answers in memory as values tell. -/
theorem method_runs {receiver : Value} (name : String) (hvs : m.TellsAll hs vs) :
    RunsAs m (Held.call (.plain (.method receiver name)) hs)
      ((Value.method receiver name).call vs) Memory.Tells := by
  show RunsAs m _ (Run.ofExcept (receiver.callMethod name vs)) _
  by_cases hbody : ∃ b place, receiver = .function (.builtin b) ∧ hs = [.list place]
  · obtain ⟨b, place, rfl, rfl⟩ := hbody
    obtain ⟨ws, rfl, hall⟩ := tellsAll_lone hvs
    refine .of_eq (bind_reads _) ?_
    show RunsAs m _ (Run.ofExcept (if b.arity.admits ws.length then b.apply ws else .error .beyond)) _
    rw [hall.length_eq]
    split
    · exact apply_runs b hall
    · exact .beyond rfl
  · have hcall : Held.call (.plain (.method receiver name)) hs = (do
        let vs ← Act.values hs
        Act.hold (← Act.ofExcept (receiver.callMethod name vs))) := by
      rw [Held.call]
      rintro b place rfl rfl
      exact hbody ⟨b, place, rfl, rfl⟩
    rw [hcall]
    refine computed_runs (receiver.callMethod name) hvs fun v hv => probeFree_of_flat (callMethod_flat ?_ hv)
    -- a body without a list of arguments has no answer
    rintro f rfl
    change Value.callBody f vs = .ok v at hv
    unfold Value.callBody at hv
    split at hv
    · rename_i b ws
      cases hvs with
      | cons hlist hnil =>
        cases hnil
        obtain ⟨place, rfl, -⟩ := list_of_tells hlist
        exact hbody ⟨b, place, rfl, rfl⟩
    · cases hv
    · cases hv

/-- **What is no test is called in memory as values tell.** -/
theorem call_runs {g : Held} {f : Value} (hf : m.Tells g f) (hvs : m.TellsAll hs vs) :
    RunsAs m (g.call hs) (f.call vs) Memory.Tells := by
  cases g with
  | plain w =>
    cases hf with
    | plain hlistless =>
      cases f with
      | function f =>
        cases f with
        | builtin b =>
          show RunsAs m (Act.ofExcept (b.arity.check b.name hs.length) >>= fun _ => Held.apply b hs)
            (Run.ofExcept (b.arity.check b.name vs.length) >>= fun _ => Run.ofExcept (b.apply vs)) _
          rw [hvs.length_eq]
          exact .ofExcept_bind fun _ _ => apply_runs b hvs
        | echo name arity =>
          show RunsAs m (Act.ofExcept (arity.check name hs.length) >>= fun _ => Act.alloc hs)
            (Run.ofExcept (arity.check name vs.length) >>= fun _ => (pure (Value.list vs) : Eval Value)) _
          rw [hvs.length_eq]
          exact .ofExcept_bind fun _ _ => alloc_runs hvs
        | recorder =>
          refine .of_eq (bind_values hvs) (.ofRun_bind fun _ _ => ?_)
          cases hvs with
          | nil => exact plain_runs rfl
          | cons hv _ => exact .pure hv
      | method receiver name => exact method_runs name hvs
      | procedure => exact .beyond rfl
      | list items => cases hlistless
      | context entries => cases hlistless
      | probe p => cases hlistless
      | _ => exact .fail _
  | list place =>
    obtain ⟨ws, rfl, -⟩ := Memory.tells_list hf
    exact .fail _
  | function place name =>
    obtain ⟨hlt, hs', ws, hplace, hall, rfl⟩ := Memory.holds_function.1 hf
    refine listFunction_runs name ?_ hvs
    unfold Memory.items
    rw [hplace]
    exact hall.mono (.refl m) (Nat.le_of_lt hlt)
  | context fields =>
    obtain ⟨entries, -, rfl⟩ := Memory.holds_context.1 hf
    exact .fail _
  | relation serial op operand layers => cases hf
  | interval serial bounds layers => cases hf

end Functions

end Criterion

import Criterion.Proofs.Failures
import Criterion.Proofs.RoundTrip

/-!
# What a trace changes

A session that traces what it does runs the same sources as one that does not: the trace adds lines and
takes nothing away. But the last line of a source shows its answer, and an answer with an integer of more
than `digitLimit` digits cannot be shown. Then the source fails, though it has an answer.

* `Value.Overlong`: values that cannot be shown (`shown_iff`).
* `Action.Follows`: an action that has the calls of another one, and an outcome that depends on the other's.
* `Session.step_follows`, `HeldSession.step_follows`, `Sitting.step_follows`: one step, next to the same step
  of a session without a trace.
* `traced_steps_agree`: **after any steps, the next step of a sitting answers what a fresh session without a
  trace answers, or fails to show an overlong answer.**
-/

namespace Criterion

/-! ## Values that cannot be shown -/

/-- Values with an integer of more than `digitLimit` digits in them. -/
inductive Value.Overlong : Value → Prop where
  | whole {i : Int} : 10 ^ digitLimit ≤ i.natAbs → Overlong (.number (.whole i))
  | item {items : List Value} {v : Value} : v ∈ items → v.Overlong → Overlong (.list items)
  | field {fields : Fields} {p : String × Value} : p ∈ fields → p.2.Overlong → Overlong (.context fields)

namespace Value

theorem overlong_whole {i : Int} : (Value.number (.whole i)).Overlong ↔ 10 ^ digitLimit ≤ i.natAbs := by
  constructor
  · rintro ⟨hi⟩
    exact hi
  · exact .whole

theorem overlong_list {items : List Value} : (Value.list items).Overlong ↔ ∃ v ∈ items, v.Overlong := by
  constructor
  · rintro (_ | ⟨hv, hlong⟩)
    exact ⟨_, hv, hlong⟩
  · rintro ⟨v, hv, hlong⟩
    exact .item hv hlong

theorem overlong_context {fields : Fields} :
    (Value.context fields).Overlong ↔ ∃ p ∈ fields, p.2.Overlong := by
  constructor
  · rintro (_ | _ | ⟨hp, hlong⟩)
    exact ⟨_, hp, hlong⟩
  · rintro ⟨p, hp, hlong⟩
    exact .field hp hlong

theorem text_iff {n : Number} : (∃ line, n.text = .ok line) ↔ ¬ (Value.number n).Overlong := by
  cases n with
  | real x =>
    have hreal : ¬ (Value.number (.real x)).Overlong := by rintro ⟨⟩
    exact iff_of_true ⟨x.text, rfl⟩ hreal
  | whole i =>
    rw [overlong_whole, Nat.not_le]
    constructor
    · rintro ⟨line, hline⟩
      by_contra hlong
      have htext : integerText? i = none := by
        unfold integerText?
        rw [Nat.pow_eq, if_neg hlong]
      unfold Number.text at hline
      simp only [htext] at hline
      cases hline
    · exact fun hshort => ⟨integerText i, text_whole hshort⟩

theorem shownItems_iff {items : List Value} :
    (∃ lines, shownItems items = .ok lines) ↔ ∀ v ∈ items, ∃ line, v.shown = .ok line := by
  induction items with
  | nil => exact iff_of_true ⟨[], rfl⟩ (List.forall_mem_nil _)
  | cons v rest ih =>
    rw [List.forall_mem_cons, ← ih]
    rw [shownItems]
    cases v.shown <;> cases shownItems rest <;> simp [bind, Except.bind, pure, Except.pure]

theorem shownFields_iff {fields : Fields} :
    (∃ lines, shownFields fields = .ok lines) ↔ ∀ p ∈ fields, ∃ line, p.2.shown = .ok line := by
  induction fields with
  | nil => exact iff_of_true ⟨[], rfl⟩ (List.forall_mem_nil _)
  | cons p rest ih =>
    rw [List.forall_mem_cons, ← ih]
    rw [shownFields]
    cases p.2.shown <;> cases shownFields rest <;> simp [bind, Except.bind, pure, Except.pure]

mutual

/-- A value can be shown unless it is overlong. -/
theorem shown_iff : ∀ v : Value, (∃ line, v.shown = .ok line) ↔ ¬ v.Overlong
  | .number n => by
    unfold shown
    exact text_iff
  | .list items => by
    have hlist : (∃ line, (Value.list items).shown = .ok line) ↔
        ∃ lines, shownItems items = .ok lines := by
      unfold shown
      cases shownItems items <;> simp [bind, Except.bind, pure, Except.pure]
    rw [hlist, shownItems_iff, overlong_list]
    simpa using shown_items_iff items
  | .context fields => by
    have hcontext : (∃ line, (Value.context fields).shown = .ok line) ↔
        ∃ lines, shownFields fields = .ok lines := by
      unfold shown
      cases shownFields fields <;> simp [bind, Except.bind, pure, Except.pure]
    rw [hcontext, shownFields_iff, overlong_context]
    simpa using shown_fields_iff fields
  | .null | .boolean _ | .text _ | .date _ | .time _ | .moment _ | .duration _ | .zone _
  | .function _ | .method .. | .probe _ | .procedure => iff_of_true ⟨_, rfl⟩ (by rintro ⟨⟩)

theorem shown_items_iff : ∀ items : List Value,
    (∀ v ∈ items, ∃ line, v.shown = .ok line) ↔ ∀ v ∈ items, ¬ v.Overlong
  | [] => iff_of_true (List.forall_mem_nil _) (List.forall_mem_nil _)
  | v :: rest => by
    rw [List.forall_mem_cons, List.forall_mem_cons, shown_iff v, shown_items_iff rest]

theorem shown_fields_iff : ∀ fields : List (String × Value),
    (∀ p ∈ fields, ∃ line, p.2.shown = .ok line) ↔ ∀ p ∈ fields, ¬ p.2.Overlong
  | [] => iff_of_true (List.forall_mem_nil _) (List.forall_mem_nil _)
  | (_, v) :: rest => by
    rw [List.forall_mem_cons, List.forall_mem_cons, shown_iff v, shown_fields_iff rest]

end

/-- What is overlong has too many digits to be shown. -/
theorem Overlong.shown_eq {v : Value} (h : v.Overlong) : v.shown = .error .tooManyDigits := by
  have hfails : FailsAs (.tooManyDigits = ·) v.shown := shown_fails rfl v
  cases hv : v.shown with
  | ok line => exact absurd h ((shown_iff v).1 ⟨line, hv⟩)
  | error f => rw [hfails f hv]

end Value

/-! ## Actions that follow others -/

namespace Action

variable {α β γ δ : Type}

/-- The recorded calls among the events of an action. -/
def calls (a : Action α) : List (List Value) :=
  a.events.filterMap fun e => match e with
    | .call arguments => some arguments
    | .line _ => none

/-- An action has the calls of another one, and the outcome that follows from what the other answers. -/
structure Follows (g : α → Except Failure β) (traced : Action β) (plain : Action α) : Prop where
  calls : traced.calls = plain.calls
  outcome : traced.outcome = plain.outcome >>= g

/-- An action has the calls and the outcome of another one. -/
abbrev Agrees (traced plain : Action α) : Prop := Follows .ok traced plain

theorem Agrees.refl (a : Action α) : Agrees a a := by
  refine ⟨rfl, ?_⟩
  cases a.outcome <;> rfl

theorem Agrees.outcome_eq {traced plain : Action α} (h : Agrees traced plain) :
    traced.outcome = plain.outcome := by
  rw [h.outcome]
  cases plain.outcome <;> rfl

theorem Follows.fail (g : α → Except Failure β) (f : Failure) :
    Follows g (Run.fail f) (Run.fail f) := ⟨rfl, rfl⟩

/-- After actions that agree come actions that follow. -/
theorem Follows.bind {g : γ → Except Failure δ} {traced plain : Action α} {k : α → Action δ}
    {l : α → Action γ} (h : Agrees traced plain) (hk : ∀ a, Follows g (k a) (l a)) :
    Follows g (traced >>= k) (plain >>= l) := by
  have houtcome : traced.outcome = plain.outcome := h.outcome_eq
  cases hplain : plain.outcome with
  | error f =>
    rw [Run.bind_of_error (houtcome.trans hplain), Run.bind_of_error hplain]
    exact ⟨h.calls, rfl⟩
  | ok a =>
    rw [Run.bind_of_ok (houtcome.trans hplain), Run.bind_of_ok hplain]
    constructor
    · have hfirst := h.calls
      have hnext := (hk a).calls
      unfold Action.calls at hfirst hnext ⊢
      rw [List.filterMap_append, List.filterMap_append, hfirst, hnext]
    · exact (hk a).outcome

/-- What an action makes of the answers follows too. -/
theorem Follows.andThen {g : α → Except Failure β} {traced : Action β} {plain : Action α}
    (h : Follows g traced plain) (k : β → δ) (l : α → γ) {g' : γ → Except Failure δ}
    (hg : ∀ a, (g a).map k = g' (l a)) :
    Follows g' (do return k (← traced)) (do return l (← plain)) := by
  have hcalls := h.calls
  have houtcome := h.outcome
  cases hplain : plain.outcome with
  | error f =>
    rw [hplain] at houtcome
    rw [Run.bind_of_error houtcome, Run.bind_of_error hplain]
    exact ⟨hcalls, rfl⟩
  | ok a =>
    have htraced : traced.outcome = g a := by rw [houtcome, hplain]; rfl
    have ha := hg a
    rw [Run.bind_of_ok hplain]
    cases hga : g a with
    | error f =>
      rw [hga] at htraced ha
      rw [Run.bind_of_error htraced]
      refine ⟨?_, ha⟩
      simpa [Action.calls] using hcalls
    | ok b =>
      rw [hga] at htraced ha
      rw [Run.bind_of_ok htraced]
      refine ⟨?_, ha⟩
      simpa [Action.calls] using hcalls

end Action

open Criterion.Action

/-! ## Sources -/

namespace Settings

/-- The settings without a trace. -/
def untraced (s : Settings) : Settings := ⟨s.registry, 0⟩

/-- An answer that the trace has shown, if it shows answers. -/
def displayed (s : Settings) (v : Value) : Except Failure Value :=
  if 1 ≤ s.detail then v.shown.map fun _ => v else .ok v

variable (s : Settings)

theorem note_agrees (text : String) : Agrees (s.note text) (s.untraced.note text) := by
  unfold note
  by_cases h : 1 ≤ s.detail
  · rw [if_pos h]
    exact ⟨rfl, rfl⟩
  · rw [if_neg h]
    exact ⟨rfl, rfl⟩

/-- The walk that builds a tree makes no calls and is the same at every level of detail. -/
theorem build_agrees (source : String) (t : Tree) :
    Agrees (s.build source t) (s.untraced.build source t) := by
  have hcalls : ∀ (detail : Nat) (lines : List TraceLine),
      (lines.flatMap fun l => if l.level ≤ detail then [Event.line l.shown] else []).filterMap
        (fun e => match e with
          | .call arguments => some arguments
          | .line _ => none) = [] := by
    intro detail lines
    induction lines with
    | nil => rfl
    | cons l rest ih =>
      rw [List.flatMap_cons, List.filterMap_append, ih, List.append_nil]
      by_cases h : l.level ≤ detail
      · rw [if_pos h]
        rfl
      · rw [if_neg h]
        rfl
  refine ⟨(hcalls s.detail _).trans (hcalls 0 _).symm, ?_⟩
  show (t.build source).outcome = (t.build source).outcome >>= Except.ok
  cases (t.build source).outcome <;> rfl

/-- What is answered after a line that shows a value: nothing if the value cannot be shown. -/
theorem noted {α : Type} (text : String) (v : Value) (a : α) :
    (do s.noteAnswer text v; return a : Action α).calls = [] ∧
      (do s.noteAnswer text v; return a : Action α).outcome =
        if 1 ≤ s.detail then v.shown.map fun _ => a else .ok a := by
  by_cases h : 1 ≤ s.detail
  · rw [if_pos h]
    cases hv : v.shown with
    | error f =>
      have hnote : s.noteAnswer text v = Run.fail f := by
        unfold noteAnswer
        rw [if_pos h, hv]
        rfl
      rw [hnote]
      exact ⟨rfl, rfl⟩
    | ok line =>
      have hnote : s.noteAnswer text v = Run.emit (.line (text ++ " -> " ++ line)) := by
        unfold noteAnswer
        rw [if_pos h, hv]
        rfl
      rw [hnote]
      exact ⟨rfl, rfl⟩
  · have hnote : s.noteAnswer text v = pure () := if_neg h
    rw [hnote, if_neg h]
    exact ⟨rfl, rfl⟩

theorem answer_follows (text : String) (v : Value) :
    Follows s.displayed (do s.noteAnswer text v; return v)
      (do s.untraced.noteAnswer text v; return v) :=
  ⟨(s.noted text v v).1, (s.noted text v v).2⟩

theorem evaluate_follows (source : String) (bindings : Fields) :
    Follows s.displayed (evaluate s source bindings) (evaluate s.untraced source bindings) := by
  unfold evaluate
  refine .bind (note_agrees s _) fun _ => .bind (.refl _) fun tree => ?_
  refine .bind (build_agrees s source tree) fun artifact => ?_
  cases artifact with
  | none => exact .fail _ _
  | some a => exact .bind (.refl _) fun v => answer_follows s _ v.single

theorem unaryTest_follows (source : String) (bindings : Fields) (reports : Bool) :
    Follows s.displayed (unaryTest s source bindings reports)
      (unaryTest s.untraced source bindings reports) := by
  unfold unaryTest
  refine .bind (note_agrees s _) fun _ => .bind (.refl _) fun tree => ?_
  refine .bind (build_agrees s source tree) fun artifact => ?_
  cases artifact with
  | none => exact .fail _ _
  | some a =>
    cases a with
    | tests ts => exact .bind (.refl _) fun v => answer_follows s _ v
    | _ => exact .fail _ _

end Settings

/-! ## Sessions -/

/-- A reply that the trace has shown, if it shows answers. -/
def Settings.replied (s : Settings) : Reply → Except Failure Reply
  | .value v => (s.displayed v).map .value
  | r => .ok r

namespace Session

/-- A session of the same registry that has just begun and traces nothing, with the same variables. -/
def fresh (s : Session) : Session := ⟨s.settings.untraced, s.bindings, true⟩

theorem settings_saved (s : Session) (name : Option String) (v : Value) :
    (s.saved name v).settings = s.settings := by
  cases name <;> rfl

theorem settings_answered (s : Session) (name : Option String) (action : Action Value) :
    (s.answered name action).1.settings = s.settings := by
  unfold answered
  cases action.outcome with
  | ok v => exact settings_saved s name v
  | error f => rfl

theorem settings_step (s : Session) (step : Step) : (s.step step).1.settings = s.settings := by
  cases step with
  | set name v => exact settings_saved s (some name) v
  | evaluate source context save => exact settings_answered s save _
  | unary source context reports save => exact settings_answered s save _
  | parse source unary => rfl
  | close => rfl

/-- One step, next to the same step of a session without a trace. -/
theorem step_follows (s : Session) (step : Step) :
    Follows s.settings.replied (s.step step).2 (s.fresh.step step).2 := by
  have hreply : ∀ v, (s.settings.displayed v).map Reply.value = s.settings.replied (.value v) :=
    fun v => rfl
  cases step with
  | set name v => exact ⟨rfl, rfl⟩
  | evaluate source context save =>
    exact (Settings.evaluate_follows s.settings source _).andThen Reply.value Reply.value hreply
  | unary source context reports save =>
    exact (Settings.unaryTest_follows s.settings source _ reports).andThen Reply.value Reply.value hreply
  | parse source unary =>
    refine ⟨rfl, ?_⟩
    show (do return Reply.tree (← Run.ofExcept (Criterion.parse unary source)) : Action Reply).outcome =
      (do return Reply.tree (← Run.ofExcept (Criterion.parse unary source)) : Action Reply).outcome >>= _
    cases Criterion.parse unary source <;> rfl
  | close => exact ⟨rfl, rfl⟩

end Session

/-- What follows from a reply without a trace: it is the reply, unless the trace has to show an overlong
answer. -/
theorem Action.Follows.reply {s : Settings} {traced plain : Action Reply} (h : Follows s.replied traced plain) :
    traced.calls = plain.calls ∧
    ((∃ v, plain.outcome = .ok (.value v) ∧ v.Overlong ∧ 1 ≤ s.detail ∧
        traced.outcome = .error .tooManyDigits) ∨
      traced.outcome = plain.outcome ∧
        ∀ v, plain.outcome = .ok (.value v) → 1 ≤ s.detail → ¬ v.Overlong) := by
  refine ⟨h.calls, ?_⟩
  have houtcome := h.outcome
  by_cases hlong : ∃ v, plain.outcome = .ok (.value v) ∧ 1 ≤ s.detail ∧ v.Overlong
  · obtain ⟨v, hv, hdetail, hlong⟩ := hlong
    refine .inl ⟨v, hv, hlong, hdetail, ?_⟩
    rw [houtcome, hv]
    show ((s.displayed v).map Reply.value) = _
    rw [Settings.displayed, if_pos hdetail, hlong.shown_eq]
    rfl
  · refine .inr ⟨?_, fun v hv hdetail h => hlong ⟨v, hv, hdetail, h⟩⟩
    rw [houtcome]
    cases hplain : plain.outcome with
    | error f => rfl
    | ok r =>
      cases r with
      | nothing => rfl
      | tree t => rfl
      | value v =>
        show ((s.displayed v).map Reply.value) = _
        unfold Settings.displayed
        by_cases hdetail : 1 ≤ s.detail
        · rw [if_pos hdetail]
          have hshort : ¬ v.Overlong := fun h => hlong ⟨v, hplain, hdetail, h⟩
          obtain ⟨line, hline⟩ := (Value.shown_iff v).2 hshort
          rw [hline]
          rfl
        · rw [if_neg hdetail]
          rfl

/-- A reply ends where values do not tell how it goes on if it does so without a trace. -/
theorem Action.Follows.isBeyond {s : Settings} {traced plain : Action Reply}
    (h : Follows s.replied traced plain) : traced.isBeyond = plain.isBeyond := by
  unfold Run.isBeyond
  rcases h.reply.2 with ⟨v, hplain, -, -, htraced⟩ | ⟨hsame, -⟩
  · rw [hplain, htraced]
    rfl
  · rw [hsame]

/-! ## Sessions in memory -/

/-- An answer in memory that the trace has shown, if it shows answers. -/
def Settings.displayedIn (s : Settings) (m : Memory) (h : Held) : Except Failure Held :=
  if 1 ≤ s.detail then (m.value h >>= Value.shown).map fun _ => h else .ok h

/-- The value of an answer that is shown is a reply that is shown. -/
theorem Settings.displayedIn_value (s : Settings) (m : Memory) (h : Held) :
    (do return Reply.value (← m.value (← s.displayedIn m h)) : Except Failure Reply) =
      (do return Reply.value (← m.value h) : Except Failure Reply) >>= s.replied := by
  unfold displayedIn replied displayed
  by_cases hdetail : 1 ≤ s.detail
  · rw [if_pos hdetail]
    cases hvalue : m.value h with
    | error f => rfl
    | ok v =>
      show (do return Reply.value (← m.value (← v.shown.map fun _ => h)) : Except Failure Reply) =
        (if 1 ≤ s.detail then v.shown.map fun _ => v else .ok v).map Reply.value
      rw [if_pos hdetail]
      cases v.shown with
      | error f => rfl
      | ok line =>
        show (do return Reply.value (← m.value h) : Except Failure Reply) = _
        rw [hvalue]
        rfl
  · rw [if_neg hdetail]
    cases hvalue : m.value h with
    | error f =>
      show (do return Reply.value (← m.value h) : Except Failure Reply) = _
      rw [hvalue]
      rfl
    | ok v =>
      show (do return Reply.value (← m.value h) : Except Failure Reply) =
        (if 1 ≤ s.detail then v.shown.map fun _ => v else .ok v).map Reply.value
      rw [hvalue, if_neg hdetail]
      rfl

/-- In every memory an act leaves what another one leaves, with the calls and the outcome of the other. -/
def Act.Agrees {α : Type} (traced plain : Act Event α) : Prop :=
  ∀ m, (traced m).1 = (plain m).1 ∧ Action.Agrees (traced m).2 (plain m).2

/-- An act leaves what another one leaves, and fails where the answer of the other cannot be shown. -/
def Act.Shows (s : Settings) (traced plain : Act Event Held) : Prop :=
  ∀ m, (traced m).1 = (plain m).1 ∧ Follows (s.displayedIn (plain m).1) (traced m).2 (plain m).2

namespace Act

variable {α β : Type} {s : Settings}

theorem Agrees.refl (x : Act Event α) : x.Agrees x := fun _ => ⟨rfl, .refl _⟩

theorem Agrees.ofRun {traced plain : Action α} (h : Action.Agrees traced plain) :
    (Act.ofRun traced).Agrees (Act.ofRun plain) := fun _ => ⟨rfl, h⟩

/-- After acts that agree come acts that show. -/
theorem Shows.bind {traced plain : Act Event α} {k l : α → Act Event Held} (h : traced.Agrees plain)
    (hk : ∀ a, (k a).Shows s (l a)) : (traced >>= k).Shows s (plain >>= l) := by
  intro m
  obtain ⟨hmemory, hrun⟩ := h m
  have houtcome := hrun.outcome_eq
  have hcalls := hrun.calls
  cases hplain : (plain m).2.outcome with
  | error f =>
    rw [Act.bind_of_error hplain, Act.bind_of_error (houtcome.trans hplain)]
    exact ⟨hmemory, hcalls, rfl⟩
  | ok a =>
    rw [Act.bind_of_ok hplain, Act.bind_of_ok (houtcome.trans hplain), hmemory]
    obtain ⟨hleft, hnext⟩ := hk a (plain m).1
    refine ⟨hleft, ?_, hnext.outcome⟩
    have hlast := hnext.calls
    unfold Action.calls at hcalls hlast ⊢
    rw [List.filterMap_append, List.filterMap_append, hcalls, hlast]

theorem Shows.fail (f : Failure) : (Act.fail f : Act Event Held).Shows s (Act.fail f) :=
  fun _ => ⟨rfl, .fail _ f⟩

end Act

namespace Settings

variable (s : Settings)

theorem noteHeld_shows (text : String) (h : Held) :
    (s.noteHeld text h).Shows s (s.untraced.noteHeld text h) := by
  intro m
  by_cases hdetail : 1 ≤ s.detail
  · have hnote : s.noteHeld text h = (do
        let v ← Act.value h
        Act.ofRun (s.noteAnswer text v)
        return h) := if_pos hdetail
    have hshow : s.displayedIn m h = (m.value h >>= Value.shown).map fun _ => h := if_pos hdetail
    rw [hnote]
    cases hvalue : m.value h with
    | error f =>
      have hread : (Act.value h m : Memory × Run Event Value).2.outcome = .error f := hvalue
      rw [Act.bind_of_error hread]
      refine ⟨rfl, rfl, ?_⟩
      show _ = s.displayedIn m h
      rw [hshow, hvalue]
      rfl
    | ok v =>
      have hread : (Act.value h m : Memory × Run Event Value).2.outcome = .ok v := hvalue
      have hread' : (Act.value h m : Memory × Run Event Value).1 = m := rfl
      rw [Act.bind_of_ok hread, hread']
      have hlast : (do Act.ofRun (s.noteAnswer text v); return h : Act Event Held) m =
          (m, do s.noteAnswer text v; return h) := by
        cases s.noteAnswer text v with
        | mk events outcome => cases outcome <;> rfl
      obtain ⟨hcalls, houtcome⟩ := s.noted text v h
      rw [hlast]
      refine ⟨rfl, hcalls, houtcome.trans ?_⟩
      show _ = s.displayedIn m h
      rw [hshow, hvalue, if_pos hdetail]
      rfl
  · have hnote : s.noteHeld text h = return h := if_neg hdetail
    rw [hnote]
    refine ⟨rfl, rfl, ?_⟩
    show _ = s.displayedIn m h
    rw [displayedIn, if_neg hdetail]
    rfl

theorem evaluateHeld_shows (registry : HeldFields) (source : String) (bindings : HeldFields) :
    (evaluateHeld s registry source bindings).Shows s (evaluateHeld s.untraced registry source bindings) := by
  unfold evaluateHeld
  refine .bind (.ofRun (note_agrees s _)) fun _ => .bind (.refl _) fun tree => ?_
  refine .bind (.ofRun (build_agrees s source tree)) fun artifact => ?_
  cases artifact with
  | none => exact .fail _
  | some a => exact .bind (.refl _) fun h => .bind (.refl _) fun h => noteHeld_shows s _ h

theorem unaryTestHeld_shows (registry : HeldFields) (source : String) (bindings : HeldFields) (reports : Bool) :
    (unaryTestHeld s registry source bindings reports).Shows s
      (unaryTestHeld s.untraced registry source bindings reports) := by
  unfold unaryTestHeld
  refine .bind (.ofRun (note_agrees s _)) fun _ => .bind (.refl _) fun tree => ?_
  refine .bind (.ofRun (build_agrees s source tree)) fun artifact => ?_
  cases artifact with
  | none => exact .fail _
  | some a =>
    cases a with
    | tests ts => exact .bind (.refl _) fun h => noteHeld_shows s _ h
    | _ => exact .fail _

end Settings

namespace HeldSession

/-- A session in the same memory that has just begun and traces nothing, with the same variables. -/
def fresh (s : HeldSession) : HeldSession := { s with settings := s.settings.untraced, isOpen := true }

theorem answered_follows (s : HeldSession) (name : Option String) {traced plain : Act Event Held}
    (h : traced.Shows s.settings plain) :
    Follows s.settings.replied (s.answered name traced).2 (s.fresh.answered name plain).2 := by
  obtain ⟨hmemory, hrun⟩ := h s.memory
  refine ⟨hrun.calls, ?_⟩
  show (do return Reply.value (← (traced s.memory).1.value (← (traced s.memory).2.outcome)) :
      Except Failure Reply) =
    (do return Reply.value (← (plain s.memory).1.value (← (plain s.memory).2.outcome)) :
      Except Failure Reply) >>= s.settings.replied
  rw [hmemory, hrun.outcome]
  cases (plain s.memory).2.outcome with
  | error f => rfl
  | ok g => exact s.settings.displayedIn_value (plain s.memory).1 g

/-- One step, next to the same step of a session without a trace. -/
theorem step_follows (s : HeldSession) (step : Step) :
    Follows s.settings.replied (s.step step).2 (s.fresh.step step).2 := by
  cases step with
  | set name v => exact ⟨rfl, rfl⟩
  | evaluate source context save =>
    exact answered_follows (s.overlaid context).1 save
      (Settings.evaluateHeld_shows s.settings s.registry source (s.overlaid context).2)
  | unary source context reports save =>
    exact answered_follows (s.overlaid context).1 save
      (Settings.unaryTestHeld_shows s.settings s.registry source (s.overlaid context).2 reports)
  | parse source unary =>
    refine ⟨rfl, ?_⟩
    show (do return Reply.tree (← Run.ofExcept (Criterion.parse unary source)) : Action Reply).outcome =
      (do return Reply.tree (← Run.ofExcept (Criterion.parse unary source)) : Action Reply).outcome >>= _
    cases Criterion.parse unary source <;> rfl
  | close => exact ⟨rfl, rfl⟩

end HeldSession

/-! ## Sittings -/

namespace HeldSession

theorem settings_step (s : HeldSession) (step : Step) : (s.step step).1.settings = s.settings := by
  cases step <;> rfl

/-- No step changes the settings. -/
theorem settings_after (s : HeldSession) (steps : List Step) : (s.after steps).settings = s.settings := by
  induction steps generalizing s with
  | nil => rfl
  | cons step rest ih =>
    have hrest : ((s.step step).1.after rest).settings = (s.step step).1.settings := ih _
    exact hrest.trans (settings_step s step)

end HeldSession

namespace Sitting

theorem settings_inMemory (s : Sitting) : s.inMemory.settings = s.settings := by
  cases s with
  | told session past => exact (HeldSession.start session.settings).settings_after past
  | held session => rfl

theorem settings_step (s : Sitting) (step : Step) : (s.step step).1.settings = s.settings := by
  have hmemory : (s.stepInMemory step).1.settings = s.settings :=
    (s.inMemory.settings_step step).trans s.settings_inMemory
  cases s with
  | held session => exact hmemory
  | told session past =>
    unfold Sitting.step
    by_cases hbeyond : (session.step step).2.isBeyond
    · simp only [hbeyond, if_true]
      exact hmemory
    · simp only [hbeyond, Bool.false_eq_true, if_false]
      exact session.settings_step step

theorem settings_after (s : Sitting) (steps : List Step) : (s.after steps).settings = s.settings := by
  induction steps generalizing s with
  | nil => rfl
  | cons step rest ih =>
    have hrest : ((s.step step).1.after rest).settings = (s.step step).1.settings := ih _
    exact hrest.trans (settings_step s step)

/-- The reply of a session that has just begun and traces nothing, with the same variables. -/
def freshReply (s : Sitting) (step : Step) : Action Reply :=
  match s with
  | .told session _ =>
    let told := (session.fresh.step step).2
    if told.isBeyond then (s.inMemory.fresh.step step).2 else told
  | .held session => (session.fresh.step step).2

/-- One step, next to the same step of a session without a trace. -/
theorem step_follows (s : Sitting) (step : Step) :
    Follows s.settings.replied (s.step step).2 (s.freshReply step) := by
  cases s with
  | held session => exact session.step_follows step
  | told session past =>
    have htold : Follows session.settings.replied (session.step step).2 (session.fresh.step step).2 :=
      session.step_follows step
    unfold Sitting.step freshReply
    by_cases hbeyond : (session.fresh.step step).2.isBeyond
    · simp only [htold.isBeyond, hbeyond, if_true]
      have hmemory := (Sitting.told session past).inMemory.step_follows step
      rw [settings_inMemory] at hmemory
      exact hmemory
    · simp only [htold.isBeyond, hbeyond, Bool.false_eq_true, if_false]
      exact htold

end Sitting

/-- After any steps of a sitting, of which some may have failed, the next step makes the calls and gives the
answer of the same step of a session that has just begun and traces nothing: unless the trace is to show
the answer and the answer is overlong. What one step does to a list of the variables the session without a
trace finds done; and a step that asks for the time ends in `Failure.beyond` with a trace and without. -/
theorem traced_steps_agree (registry : Fields) (detail : Nat) (history : List Step) (step : Step) :
    let s := (Sitting.start ⟨registry, detail⟩).after history
    let traced := (s.step step).2
    let plain := s.freshReply step
    traced.calls = plain.calls ∧
    ((∃ v, plain.outcome = .ok (.value v) ∧ v.Overlong ∧ 1 ≤ detail ∧
        traced.outcome = .error .tooManyDigits) ∨
      traced.outcome = plain.outcome ∧
        ∀ v, plain.outcome = .ok (.value v) → 1 ≤ detail → ¬ v.Overlong) := by
  intro s traced plain
  have hsettings : s.settings = ⟨registry, detail⟩ := Sitting.settings_after _ history
  have hdetail : s.settings.detail = detail := by rw [hsettings]
  have hreply := (s.step_follows step).reply
  rw [hdetail] at hreply
  exact hreply

/-- The first level of detail turns the answer of a source into a failure: the power has 5001 digits. -/
theorem long_power_fails_traced :
    let step : Step := .evaluate "(10**1000)**5" [] none
    failureOf ((Sitting.start ⟨standardRegistry, 1⟩).step step).2.outcome = some .tooManyDigits ∧
      failureOf ((Sitting.start ⟨standardRegistry, 0⟩).step step).2.outcome = none := by
  decide +kernel

end Criterion

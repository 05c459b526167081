import Criterion.Proofs.Refinement
import Criterion.Proofs.Traces

/-!
# Sittings are sessions in memory

A sitting asks values first and the memory only where values do not tell an answer. This makes no difference to what
it replies: as long as values tell all, the session in memory holds the variables that the session of values has, and
replies alike; from then on the two are the same session.

* `HeldSession.Tells`: a session in memory holds the variables of a session of values.
* `step_tells`: a step that values tell keeps this, and has the same reply in both.
* `replies_in_memory`: **a sitting replies to all steps what the session in memory replies.**
* `respond_in_memory`: **so does the answer of one source.**
-/

namespace Criterion

open Act

/-! ## Sources -/

/-- Whether the tests in an expression, or in unary tests, are asked where they are made, and few enough of them in
turn. -/
def Artifact.isTold (unary : Bool) : Artifact → Bool
  | .expr e => !unary && e.isTold .data (Act.limit - 1)
  | .tests ts => unary && Expr.areTold ts.tests .tests Act.limit
  | _ => false

/-- Whether the tests in a source are asked where they are made. -/
def isToldSource (unary : Bool) (source : String) : Bool :=
  match parse unary source with
  | .ok t => match (t.build source).outcome with
    | .ok (some a) => a.isTold unary
    | _ => true
  | .error _ => true

section Sources

variable {m : Memory} {registry : HeldFields} {layers : HeldLayers} {scope : Scope} {h : Held} {v : Value}

namespace Act

theorem RunsAs.mapEvents {ε δ α β : Type} {x : Act ε α} {r : Run ε β} {Q : Memory → α → β → Prop}
    (hx : RunsAs m x r Q) (f : ε → List δ) : RunsAs m (x.mapEvents f) (r.mapEvents f) Q := by
  intro htold
  obtain ⟨hgrows, hevents, hends⟩ := hx htold
  exact ⟨hgrows, congrArg (List.flatMap f) hevents, hends⟩

end Act

theorem single_runs {ε : Type} (hv : m.Tells h v) :
    RunsAs m (h.single : Act ε Held) (pure v.single : Run ε Value) Memory.Tells := by
  by_cases hlist : ∃ place, h = .list place
  · obtain ⟨place, rfl⟩ := hlist
    obtain ⟨vs, rfl, hall⟩ := Memory.tells_list hv
    refine .of_eq (bind_reads _) ?_
    generalize m.items place = hs at hall
    cases hall with
    | nil => exact .pure hv
    | cons hfirst hrest =>
      cases hrest with
      | nil => exact .pure hfirst
      | cons => exact .pure hv
  · have hheld : (h.single : Act ε Held) = pure h := by
      unfold Held.single
      split
      · exact absurd ⟨_, rfl⟩ hlist
      · rfl
    have htold : v.single = v := by
      unfold Value.single
      split
      · obtain ⟨place, rfl, -⟩ := list_of_tells hv
        exact absurd ⟨place, rfl⟩ hlist
      · rfl
    rw [hheld, htold]
    exact .pure hv

theorem noteHeld_runs (s : Settings) (text : String) (hv : m.Tells h v) :
    RunsAs m (s.noteHeld text h) (do
      s.noteAnswer text v
      return v) Memory.Tells := by
  unfold Settings.noteHeld
  by_cases hdetail : 1 ≤ s.detail
  · rw [if_pos hdetail]
    exact .of_eq (bind_value hv) (.ofRun_bind fun _ _ => .pure hv)
  · have hnote : s.noteAnswer text v = pure () := if_neg hdetail
    rw [if_neg hdetail, hnote]
    exact .pure hv

theorem artifact_runs {a : Artifact} {entries : Fields} (htold : a.isTold false = true)
    (hnames : m.TellsNames registry entries layers scope) :
    RunsAs m (a.act registry layers) (a.eval entries scope) Memory.Tells := by
  cases a with
  | expr e => exact Expr.act_runs e htold hnames
  | _ => cases htold

/-- What is built of a told source is told. -/
theorem isTold_of_build {unary : Bool} {source : String} {s : Settings} {t : Tree} {a : Artifact}
    (hsource : isToldSource unary source = true) (ht : parse unary source = .ok t)
    (ha : (s.build source t).outcome = .ok (some a)) : a.isTold unary = true := by
  have hbuild : (t.build source).outcome = .ok (some a) := ha
  unfold isToldSource at hsource
  rw [ht] at hsource
  dsimp only at hsource
  rw [hbuild] at hsource
  exact hsource

variable (s : Settings) {source : String} {held : HeldFields} {bindings : Fields}

/-- **The expressions of a source are answered in memory as values tell.** -/
theorem evaluateHeld_runs (hsource : isToldSource false source = true)
    (hregistry : m.TellsFields registry s.registry) (hbindings : m.TellsFields held bindings) :
    RunsAs m (evaluateHeld s registry source held) (evaluate s source bindings) Memory.Tells := by
  have hnames : m.TellsNames registry s.registry [held] (.ofFields bindings) := ⟨hregistry, .cons hbindings .nil⟩
  refine .ofRun_bind fun _ _ => .ofExcept_bind fun t ht => .ofRun_bind fun artifact hartifact => ?_
  cases artifact with
  | none => exact .fail _
  | some a =>
    have htold := isTold_of_build hsource ht hartifact
    refine ((artifact_runs htold hnames).mapEvents _).bind fun m₁ h v _ hv => ?_
    show RunsAs m₁ _ ((pure v.single : Action Value) >>= fun w => do
      s.noteAnswer _ w
      return w) _
    exact (single_runs hv).bind fun _ _ _ _ hw => noteHeld_runs s _ hw

/-- **The unary tests of a source are answered in memory as values tell.** -/
theorem unaryTestHeld_runs (hsource : isToldSource true source = true)
    (hregistry : m.TellsFields registry s.registry) (hbindings : m.TellsFields held bindings) (reports : Bool) :
    RunsAs m (unaryTestHeld s registry source held reports) (unaryTest s source bindings reports)
      Memory.Tells := by
  have hlayers : m.TellsLayers (if reports then [[(Scope.reportKey, .plain (.boolean true))], held] else [held])
      (if reports then (Scope.ofFields bindings).extend [(Scope.reportKey, .boolean true)]
        else .ofFields bindings) := by
    split
    · exact .cons (.cons ⟨rfl, .plain rfl⟩ .nil) (.cons hbindings .nil)
    · exact .cons hbindings .nil
  have hinput := get_or_null (layersGet_tells hlayers Scope.inputKey)
  refine .ofRun_bind fun _ _ => .ofExcept_bind fun t ht => .ofRun_bind fun artifact hartifact => ?_
  cases artifact with
  | none => exact .fail _
  | some a =>
    cases a with
    | tests ts =>
      have htold := isTold_of_build hsource ht hartifact
      refine ((UnaryTests.act_runs htold ⟨hregistry, hlayers⟩ hinput).mapEvents _).bind fun m₁ h v _ hv => ?_
      exact noteHeld_runs s _ hv
    | _ => exact .fail _

end Sources

/-! ## Sessions -/

/-- Steps with sources whose tests are asked where they are made, and with data for the variables. -/
def Step.isTold : Step → Bool
  | .set _ v => v.probeFree
  | .evaluate source context _ => isToldSource false source && Value.probeFreeFields context
  | .unary source context _ _ => isToldSource true source && Value.probeFreeFields context
  | .parse .. | .close => true

namespace HeldSession

/-- A session in memory holds the variables of a session of values. -/
structure Tells (held : HeldSession) (s : Session) : Prop where
  settings : held.settings = s.settings
  isOpen : held.isOpen = s.isOpen
  registry : held.memory.TellsFields held.registry s.settings.registry
  bindings : held.memory.TellsFields held.bindings s.bindings

theorem start_tells {settings : Settings} (hregistry : Value.probeFreeFields settings.registry = true) :
    (start settings).Tells (.start settings) :=
  ⟨rfl, rfl, (Memory.holdFields_tells settings.registry .empty hregistry).2, .nil⟩

variable {held : HeldSession} {s : Session}

/-- The variables that a source is evaluated with, under the context of the step. -/
theorem overlaid_tells (h : held.Tells s) {context : Fields} (hcontext : Value.probeFreeFields context = true) :
    (held.overlaid context).1.Tells s ∧
      (held.overlaid context).1.memory.TellsFields (held.overlaid context).2 (s.bindings.update context) := by
  obtain ⟨hgrows, hfields⟩ := Memory.holdFields_tells context held.memory hcontext
  refine ⟨⟨h.settings, h.isOpen, h.registry.grows hgrows, h.bindings.grows hgrows⟩, ?_⟩
  exact update_tells hfields (h.bindings.grows hgrows)

/-- An act that runs as an action does is answered alike, and saved alike. -/
theorem answered_tells (h : held.Tells s) (save : Option String) {act : Act Event Held} {action : Action Value}
    (hruns : RunsAs held.memory act action Memory.Tells) (htold : action.outcome ≠ .error .beyond) :
    (held.answered save act).1.Tells (s.answered save action).1 ∧
      (held.answered save act).2 = (s.answered save action).2 := by
  obtain ⟨hgrows, hevents, hends⟩ := hruns htold
  unfold HeldSession.answered Session.answered
  generalize act held.memory = made at hgrows hevents hends
  obtain ⟨m, events, outcome⟩ := made
  obtain ⟨events', outcome'⟩ := action
  dsimp only at hgrows hevents hends ⊢
  subst hevents
  have hregistry := h.registry.grows hgrows
  have hbindings := h.bindings.grows hgrows
  cases hends with
  | error f =>
    refine ⟨⟨h.settings, h.isOpen, hregistry, ?_⟩, rfl⟩
    cases save <;> exact hbindings
  | @ok g w hw =>
    refine ⟨?_, ?_⟩
    · cases save with
      | none => exact ⟨h.settings, h.isOpen, hregistry, hbindings⟩
      | some name => exact ⟨h.settings, h.isOpen, hregistry, put_tells name hw hbindings⟩
    · show (⟨events, m.value g >>= fun v => pure (.value v)⟩ : Action Reply) = ⟨events ++ [], .ok (.value w)⟩
      rw [hw.value, List.append_nil]
      rfl

theorem isBeyond_reply (action : Action Value) :
    (do return Reply.value (← action) : Action Reply).isBeyond = action.isBeyond := by
  obtain ⟨events, outcome⟩ := action
  cases outcome <;> rfl

theorem told_of_isBeyond {action : Action Value} (h : action.isBeyond = false) : action.outcome ≠ .error .beyond := by
  intro hbeyond
  unfold Run.isBeyond at h
  rw [hbeyond] at h
  cases h

/-- **A step that values tell has the same reply in memory.** -/
theorem step_tells (h : held.Tells s) {step : Step} (hstep : step.isTold = true)
    (htold : (s.step step).2.isBeyond = false) :
    (held.step step).1.Tells (s.step step).1 ∧ (held.step step).2 = (s.step step).2 := by
  cases step with
  | set name v =>
    obtain ⟨hgrows, hv⟩ := Memory.hold_tells v held.memory hstep
    exact ⟨⟨h.settings, h.isOpen, h.registry.grows hgrows, put_tells name hv (h.bindings.grows hgrows)⟩, rfl⟩
  | evaluate source context save =>
    obtain ⟨hsource, hcontext⟩ := Bool.and_eq_true_iff.1 hstep
    obtain ⟨hover, hfields⟩ := overlaid_tells h hcontext
    have hruns : RunsAs (held.overlaid context).1.memory
        (evaluateHeld held.settings held.registry source (held.overlaid context).2)
        (evaluate s.settings source (s.bindings.update context)) Memory.Tells := by
      rw [h.settings]
      exact evaluateHeld_runs s.settings hsource hover.registry hfields
    exact answered_tells hover save hruns (told_of_isBeyond (isBeyond_reply _ ▸ htold))
  | unary source context reports save =>
    obtain ⟨hsource, hcontext⟩ := Bool.and_eq_true_iff.1 hstep
    obtain ⟨hover, hfields⟩ := overlaid_tells h hcontext
    have hruns : RunsAs (held.overlaid context).1.memory
        (unaryTestHeld held.settings held.registry source (held.overlaid context).2 reports)
        (unaryTest s.settings source (s.bindings.update context) reports) Memory.Tells := by
      rw [h.settings]
      exact unaryTestHeld_runs s.settings hsource hover.registry hfields reports
    exact answered_tells hover save hruns (told_of_isBeyond (isBeyond_reply _ ▸ htold))
  | parse source unary => exact ⟨h, rfl⟩
  | close => exact ⟨⟨h.settings, rfl, h.registry, h.bindings⟩, rfl⟩

/-- The replies to some steps. -/
def replies (s : HeldSession) : List Step → List (Action Reply)
  | [] => []
  | step :: rest => (s.step step).2 :: replies (s.step step).1 rest

end HeldSession

namespace Sitting

/-- A sitting and the session in memory that it may go on as. -/
def GoesOnAs (s : Sitting) (held : HeldSession) : Prop :=
  s.inMemory = held ∧ match s with
    | .told session _ => held.Tells session
    | .held _ => True

theorem step_goesOnAs {s : Sitting} {held : HeldSession} (h : s.GoesOnAs held) {step : Step}
    (hstep : step.isTold = true) :
    (s.step step).1.GoesOnAs (held.step step).1 ∧ (s.step step).2 = (held.step step).2 := by
  obtain ⟨rfl, htells⟩ := h
  cases s with
  | held session => exact ⟨⟨rfl, trivial⟩, rfl⟩
  | told session past =>
    cases hbeyond : (session.step step).2.isBeyond with
    | true =>
      have hgo : (Sitting.told session past).step step = (Sitting.told session past).stepInMemory step := if_pos hbeyond
      rw [hgo]
      exact ⟨⟨rfl, trivial⟩, rfl⟩
    | false =>
      have hstay : (Sitting.told session past).step step =
          (.told (session.step step).1 (past ++ [step]), (session.step step).2) := by
        show (if (session.step step).2.isBeyond then _ else _) = _
        rw [hbeyond]
        rfl
      obtain ⟨hafter, hreply⟩ := HeldSession.step_tells htells hstep hbeyond
      rw [hstay]
      refine ⟨⟨?_, hafter⟩, hreply.symm⟩
      show (HeldSession.start (session.step step).1.settings).after (past ++ [step]) = _
      rw [Session.settings_step]
      exact List.foldl_append ..

/-- **A sitting replies to all steps what the session in memory replies**: that it asks values first makes no
difference. -/
theorem replies_in_memory {settings : Settings} (hregistry : Value.probeFreeFields settings.registry = true)
    {steps : List Step} (hsteps : ∀ step ∈ steps, step.isTold = true) :
    (start settings).replies steps = (HeldSession.start settings).replies steps := by
  have hfollows : ∀ (s : Sitting) (held : HeldSession), s.GoesOnAs held → s.replies steps = held.replies steps := by
    induction steps with
    | nil => exact fun _ _ _ => rfl
    | cons step rest ih =>
      intro s held h
      obtain ⟨hstep, hrest⟩ := List.forall_mem_cons.1 hsteps
      obtain ⟨hafter, hreply⟩ := step_goesOnAs h hstep
      exact congrArg₂ List.cons hreply (ih hrest _ _ hafter)
  exact hfollows _ _ ⟨rfl, HeldSession.start_tells hregistry⟩

end Sitting

/-! ## One source -/

theorem put_of_not_mem {fields : Fields} {key : String} (hkey : key ∉ fields.map (·.1)) (v : Value) :
    Fields.put key v fields = fields ++ [(key, v)] := by
  induction fields with
  | nil => rfl
  | cons p rest ih =>
    obtain ⟨hne, hrest⟩ := not_or.1 (List.mem_cons.not.1 hkey)
    unfold Fields.put
    rw [if_neg (Ne.symm hne), ih hrest]
    rfl

/-- Names that are assigned once each are fields as they are. -/
theorem update_of_nodup {pairs : Fields} : ∀ fields : Fields, ((fields ++ pairs).map (·.1)).Nodup →
    Fields.update fields pairs = fields ++ pairs := by
  induction pairs with
  | nil => exact fun _ _ => (List.append_nil _).symm
  | cons p rest ih =>
    intro fields h
    have hkey : p.1 ∉ fields.map (·.1) := by
      rw [List.map_append, List.nodup_append] at h
      exact fun hmem => h.2.2 _ hmem _ List.mem_cons_self rfl
    have hput := put_of_not_mem hkey p.2
    show Fields.update (Fields.put p.1 p.2 fields) rest = _
    rw [hput, ih _ (by rwa [List.append_assoc]), List.append_assoc]
    rfl

theorem ofPairs_of_nodup {fields : Fields} (hkeys : (fields.map (·.1)).Nodup) : Fields.ofPairs fields = fields :=
  update_of_nodup [] hkeys

variable {s : Settings} {source : String} {bindings : Fields}

/-- The first reply of a session that values tell is the first one in memory. -/
theorem first_eq {step : Step} {action : Action Value} (hregistry : Value.probeFreeFields s.registry = true)
    (hstep : step.isTold = true) (hreply : ((Session.start s).step step).2 = do return .value (← action))
    (htold : action.isBeyond = false) : HeldSession.first s step = action := by
  have hbeyond : ((Session.start s).step step).2.isBeyond = false := by
    rw [hreply, HeldSession.isBeyond_reply, htold]
  obtain ⟨-, hheld⟩ := HeldSession.step_tells (HeldSession.start_tells hregistry) hstep hbeyond
  unfold HeldSession.first
  rw [hheld, hreply, bind_assoc]
  exact bind_pure action

/-- **The expressions of a source are answered as in memory**, whether values tell the answer or not. -/
theorem respond_in_memory (hregistry : Value.probeFreeFields s.registry = true)
    (hbindings : Value.probeFreeFields bindings = true) (hkeys : (bindings.map (·.1)).Nodup)
    (hsource : isToldSource false source = true) :
    respond s source bindings = HeldSession.first s (.evaluate source bindings none) := by
  have hstep : (Step.evaluate source bindings none).isTold = true := Bool.and_eq_true_iff.2 ⟨hsource, hbindings⟩
  have hreply : ((Session.start s).step (.evaluate source bindings none)).2 = do
      return .value (← evaluate s source bindings) := by
    show (do return Reply.value (← evaluate s source (.ofPairs bindings)) : Action Reply) = _
    rw [ofPairs_of_nodup hkeys]
  unfold respond
  dsimp only
  split
  · rfl
  · rename_i htold
    exact (first_eq hregistry hstep hreply (Bool.eq_false_of_not_eq_true htold)).symm

/-- **Unary tests are answered as in memory**, whether values tell the answer or not. -/
theorem respondUnary_in_memory (hregistry : Value.probeFreeFields s.registry = true)
    (hbindings : Value.probeFreeFields bindings = true) (hkeys : (bindings.map (·.1)).Nodup)
    (hsource : isToldSource true source = true) (reports : Bool) :
    respondUnary s source bindings reports = HeldSession.first s (.unary source bindings reports none) := by
  have hstep : (Step.unary source bindings reports none).isTold = true :=
    Bool.and_eq_true_iff.2 ⟨hsource, hbindings⟩
  have hreply : ((Session.start s).step (.unary source bindings reports none)).2 = do
      return .value (← unaryTest s source bindings reports) := by
    show (do return Reply.value (← unaryTest s source (.ofPairs bindings) reports) : Action Reply) = _
    rw [ofPairs_of_nodup hkeys]
  unfold respondUnary
  dsimp only
  split
  · rfl
  · rename_i htold
    exact (first_eq hregistry hstep hreply (Bool.eq_false_of_not_eq_true htold)).symm

end Criterion

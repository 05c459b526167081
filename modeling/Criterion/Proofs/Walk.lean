import Criterion.Proofs.Runs
import Criterion.Session

/-!
# The walk over a tree is the recursion over it

* `Tree.artifact`: building by recursion, a part after the other and each after its own parts.
* `run_enter`: from a state whose next task is to enter a tree, the walk does what the recursion
  does and goes on with the tasks behind it.
* `Walk.reaches_balanced`: in every state the frames are the root frame and one frame for each
  part that is still to be left.
* `traced_artifact`: a trace enters the parts in pre-order, leaves them in post-order and is nested.
* `build_is_recursion`: **the walk answers what the recursion answers, its stack never runs empty,
  and its trace at a level of detail is the full one without the lines of the higher levels.**
-/

namespace Criterion

/-- A property of the trees of parts holds of all trees. -/
theorem Tree.induction {P : Tree → Prop} (token : ∀ k, P (.token k))
    (node : ∀ rule span children, (∀ t ∈ children, P t) → P (.node rule span children)) :
    ∀ t, P t :=
  @Tree.rec P (fun ts => ∀ t ∈ ts, P t) token node (fun _ h => absurd h List.not_mem_nil)
    (fun _ _ h hs _ ht => (List.mem_cons.1 ht).elim (fun e => e ▸ h) (hs _))

/-! ## Building by recursion -/

mutual

/-- The artifact of a tree by recursion. A blank or a comment has none; a tree of several readings
fails when it is reached; any other tree is made of its text and the artifacts of its parts, which
are built before it from left to right. -/
def Tree.artifact (source : String) : Tree → Build (Option Artifact)
  | .token k =>
    if k.kind.isTrivia then return none
    else do
      Run.emit (.enter (.token k))
      let a ← Run.ofExcept ((Tree.token k).assemble source [])
      Run.emit (.leave (.token k) a)
      return some a
  | .node .ambiguous span children => Run.fail (Tree.ambiguity source (.node .ambiguous span children))
  | .node rule span children => do
    Run.emit (.enter (.node rule span children))
    let parts ← Tree.artifacts source children
    let a ← Run.ofExcept ((Tree.node rule span children).assemble source parts)
    Run.emit (.leave (.node rule span children) a)
    return some a

/-- The artifacts of some trees, from left to right. -/
def Tree.artifacts (source : String) : List Tree → Build (List Artifact)
  | [] => return []
  | t :: rest => do
    let a ← Tree.artifact source t
    let others ← Tree.artifacts source rest
    return a.toList ++ others

end

/-- A tree that stands for one reading is made between entering and leaving it. -/
theorem artifact_node {rule : Rule} (h : rule ≠ .ambiguous) (source : String) (span : Option Span)
    (children : List Tree) :
    Tree.artifact source (.node rule span children) = (do
      Run.emit (.enter (.node rule span children))
      let parts ← Tree.artifacts source children
      let a ← Run.ofExcept ((Tree.node rule span children).assemble source parts)
      Run.emit (.leave (.node rule span children) a)
      return some a) := by
  cases rule <;> first | exact absurd rfl h | rfl

@[simp] theorem artifacts_nil (source : String) : Tree.artifacts source [] = pure [] := rfl

@[simp] theorem artifacts_cons (source : String) (t : Tree) (rest : List Tree) :
    Tree.artifacts source (t :: rest) = (do
      let a ← Tree.artifact source t
      let others ← Tree.artifacts source rest
      return a.toList ++ others) := rfl

namespace Walk

variable {source : String}

/-! ## The walk -/

@[simp] theorem run_nil (fuel : Nat) (frames : List Frame) :
    run source fuel ⟨[], frames⟩ = pure ⟨[], frames⟩ := by
  cases fuel <;> rfl

@[simp] theorem run_succ (fuel : Nat) (task : Task) (tasks : List Task) (frames : List Frame) :
    run source (fuel + 1) ⟨task :: tasks, frames⟩ =
      step source tasks frames task >>= run source fuel := rfl

/-- Leaving a part makes its artifact from its frame and adds it to the frame around it. -/
theorem step_leave (tasks : List Task) (frame outer : Frame) (frames : List Frame) (t : Tree) :
    step source tasks (frame :: outer :: frames) (.leave t) = (do
      let a ← Run.ofExcept (t.assemble source frame.reverse)
      Run.emit (.leave t a)
      return ⟨tasks, (a :: outer) :: frames⟩) := rfl

theorem step_enter_token {k : Token} (h : k.kind.isTrivia = false) (tasks : List Task)
    (frames : List Frame) :
    step source tasks frames (.enter (.token k)) = (do
      Run.emit (.enter (.token k))
      return ⟨.leave (.token k) :: tasks, [] :: frames⟩) := by
  simp [step, Tree.isTrivia, h]

theorem step_enter_node {rule : Rule} (h : rule ≠ .ambiguous) (span : Option Span)
    (children : List Tree) (tasks : List Task) (frames : List Frame) :
    step source tasks frames (.enter (.node rule span children)) = (do
      Run.emit (.enter (.node rule span children))
      return ⟨children.map .enter ++ .leave (.node rule span children) :: tasks, [] :: frames⟩) := by
  cases rule <;> first | exact absurd rfl h | rfl

/-- What the walk does at a tree: the recursion over it, and then the tasks behind it. The fuel
that is left is at least what the size of the tree leaves. -/
def Follows (source : String) (t : Tree) : Prop :=
  ∀ fuel, ∃ spare, fuel ≤ spare ∧ ∀ tasks frame frames,
    run source (fuel + 2 * t.size) ⟨.enter t :: tasks, frame :: frames⟩ =
      Tree.artifact source t >>= fun a => run source spare ⟨tasks, (a.toList ++ frame) :: frames⟩

/-- The walk over some trees is the recursion over them, if it is over each of them. The last
artifact is the first of its frame. -/
theorem run_enterAll {ts : List Tree} (h : ∀ t ∈ ts, Follows source t) :
    ∀ fuel, ∃ spare, fuel ≤ spare ∧ ∀ tasks frame frames,
      run source (fuel + 2 * Tree.size.sizes ts) ⟨ts.map .enter ++ tasks, frame :: frames⟩ =
        Tree.artifacts source ts >>= fun as =>
          run source spare ⟨tasks, (as.reverse ++ frame) :: frames⟩ := by
  induction ts with
  | nil => exact fun fuel => ⟨fuel, Nat.le_refl _, fun _ _ _ => by simp [Tree.size.sizes]⟩
  | cons t rest ih =>
    intro fuel
    obtain ⟨between, hbetween, hfirst⟩ :=
      h t List.mem_cons_self (fuel + 2 * Tree.size.sizes rest)
    obtain ⟨extra, rfl⟩ := Nat.exists_eq_add_of_le hbetween
    obtain ⟨spare, hspare, hrest⟩ :=
      ih (fun u hu => h u (List.mem_cons_of_mem _ hu)) (fuel + extra)
    refine ⟨spare, by omega, fun tasks frame frames => ?_⟩
    have hfuel : fuel + 2 * Tree.size.sizes (t :: rest) =
        fuel + 2 * Tree.size.sizes rest + 2 * t.size := by simp only [Tree.size.sizes]; omega
    have hsplit : fuel + 2 * Tree.size.sizes rest + extra =
        fuel + extra + 2 * Tree.size.sizes rest := by omega
    rw [hfuel, List.map_cons, List.cons_append, hfirst, hsplit]
    simp only [hrest, artifacts_cons, bind_assoc, pure_bind, List.reverse_append, List.append_assoc]
    refine bind_congr fun a => bind_congr fun as => ?_
    cases a <;> rfl

/-- **The walk over a tree is the recursion over it**, whatever tasks and frames there are besides. -/
theorem run_enter (source : String) (t : Tree) : Follows source t := by
  induction t using Tree.induction with
  | token k =>
    intro fuel
    cases hk : k.kind.isTrivia with
    | true =>
      -- a blank takes one task, so one step is left over
      refine ⟨fuel + 1, by omega, fun tasks frame frames => ?_⟩
      simp [Tree.size, Tree.artifact, step, Tree.isTrivia, hk]
    | false =>
      refine ⟨fuel, Nat.le_refl _, fun tasks frame frames => ?_⟩
      simp [Tree.size, Tree.artifact, step_enter_token hk, step_leave, hk, bind_assoc]
  | node rule span children ih =>
    intro fuel
    by_cases hr : rule = .ambiguous
    · subst hr
      -- the run ends here, whatever is left to do
      refine ⟨fuel, Nat.le_refl _, fun tasks frame frames => ?_⟩
      have hfuel : fuel + 2 * (Tree.node .ambiguous span children).size =
          fuel + 2 * Tree.size.sizes children + 1 + 1 := by simp only [Tree.size]; omega
      simp [hfuel, Tree.artifact, step, Tree.isTrivia]
    · obtain ⟨spare, hspare, hrun⟩ := run_enterAll ih (fuel + 1)
      obtain ⟨rest, rfl⟩ := Nat.exists_eq_add_of_le hspare
      refine ⟨fuel + rest, by omega, fun tasks frame frames => ?_⟩
      have hfuel : fuel + 2 * (Tree.node rule span children).size =
          fuel + 1 + 2 * Tree.size.sizes children + 1 := by simp only [Tree.size]; omega
      have hleft : fuel + 1 + rest = fuel + rest + 1 := by omega
      rw [hfuel, run_succ, step_enter_node hr, artifact_node hr]
      simp only [bind_assoc, pure_bind, hrun, hleft, run_succ, List.append_nil, step_leave,
        List.reverse_reverse, Option.toList_some, List.singleton_append]

end Walk

/-- The walk over a tree ends without tasks and with the tree's artifact in the root frame. -/
theorem run_start (source : String) (t : Tree) :
    Walk.run source (2 * t.size) (Walk.start t) =
      Tree.artifact source t >>= fun a => pure ⟨[], [a.toList]⟩ := by
  obtain ⟨spare, -, hrun⟩ := Walk.run_enter source t 0
  rw [show 2 * t.size = 0 + 2 * t.size by omega, Walk.start, hrun]
  simp

theorem build_eq_artifact (source : String) (t : Tree) : t.build source = Tree.artifact source t := by
  unfold Tree.build
  simp only [run_start, bind_assoc, pure_bind, List.headD_cons]
  refine (bind_congr fun a => ?_).trans (bind_pure _)
  cases a <;> rfl

namespace Walk

variable {source : String}

/-! ## The stack of frames -/

/-- How many parts are still to be left. -/
def leaves : List Task → Nat
  | [] => 0
  | .enter _ :: rest => leaves rest
  | .leave _ :: rest => leaves rest + 1

@[simp] theorem leaves_append (xs ys : List Task) : leaves (xs ++ ys) = leaves xs + leaves ys := by
  induction xs with
  | nil => simp [leaves]
  | cons task rest ih => cases task <;> simp [leaves, ih, Nat.add_right_comm]

@[simp] theorem leaves_enter (ts : List Tree) : leaves (ts.map .enter) = 0 := by
  induction ts with
  | nil => rfl
  | cons t rest ih => exact ih

/-- The states of the walk over `t`, up to its end or its first failure. -/
inductive Reaches (source : String) (t : Tree) : State → Prop where
  | start : Reaches source t (start t)
  | next {task : Task} {tasks : List Task} {frames : List Frame} {s : State} :
    Reaches source t ⟨task :: tasks, frames⟩ → (step source tasks frames task).outcome = .ok s →
      Reaches source t s

/-- The frames of a state are the root frame and one for each part that is to be left. The root
frame is empty until the last task is done, which enters or leaves the root, and it then holds one
artifact at most. -/
def Balanced (s : State) : Prop :=
  ∃ inner root, s.frames = inner ++ [root] ∧ inner.length = leaves s.tasks ∧
    ((s.tasks = [] ∧ root.length ≤ 1) ∨
      (root = [] ∧ ((∃ t, s.tasks = [.enter t]) ∨ ∃ before t, s.tasks = before ++ [.leave t])))

theorem start_balanced (t : Tree) : Balanced (start t) :=
  ⟨[], [], rfl, rfl, .inr ⟨rfl, .inl ⟨t, rfl⟩⟩⟩

/-- Entering a part adds a frame and the task to leave it. -/
theorem balanced_push {t u : Tree} (parts : List Tree) {tasks : List Task} {frames : List Frame}
    (h : Balanced ⟨.enter t :: tasks, frames⟩) :
    Balanced ⟨parts.map .enter ++ .leave u :: tasks, [] :: frames⟩ := by
  obtain ⟨inner, root, rfl, hcount, hroot⟩ := h
  refine ⟨[] :: inner, root, rfl, ?_, .inr ?_⟩
  · simpa [leaves] using hcount
  obtain ⟨hnil, -⟩ | ⟨hempty, ⟨v, hv⟩ | ⟨before, v, hv⟩⟩ := hroot
  · cases hnil
  · cases hv; exact ⟨hempty, .inr ⟨parts.map .enter, u, rfl⟩⟩
  · cases before with
    | nil => cases hv
    | cons task before =>
      cases hv
      exact ⟨hempty, .inr ⟨parts.map .enter ++ .leave u :: before, v, by simp⟩⟩

/-- A blank or a comment leaves the frames alone. -/
theorem balanced_skip {t : Tree} {tasks : List Task} {frames : List Frame}
    (h : Balanced ⟨.enter t :: tasks, frames⟩) : Balanced ⟨tasks, frames⟩ := by
  obtain ⟨inner, root, rfl, hcount, hroot⟩ := h
  refine ⟨inner, root, rfl, hcount, ?_⟩
  obtain ⟨hnil, -⟩ | ⟨rfl, ⟨v, hv⟩ | ⟨before, v, hv⟩⟩ := hroot
  · cases hnil
  · cases hv; exact .inl ⟨rfl, Nat.zero_le _⟩
  · cases before with
    | nil => cases hv
    | cons task before => cases hv; exact .inr ⟨rfl, .inr ⟨before, v, rfl⟩⟩

/-- Where a part is left there are its frame and the frame around it. -/
theorem Balanced.two_frames {t : Tree} {tasks : List Task} {frames : List Frame}
    (h : Balanced ⟨.leave t :: tasks, frames⟩) :
    ∃ frame outer rest, frames = frame :: outer :: rest := by
  obtain ⟨inner, root, rfl, hcount, -⟩ := h
  match inner with
  | [] => cases hcount
  | [frame] => exact ⟨frame, root, [], rfl⟩
  | frame :: outer :: rest => exact ⟨frame, outer, rest ++ [root], rfl⟩

/-- Leaving a part hands its artifact to the frame around it. -/
theorem balanced_pop {t : Tree} {a : Artifact} {tasks : List Task} {frame outer : Frame}
    {frames : List Frame} (h : Balanced ⟨.leave t :: tasks, frame :: outer :: frames⟩) :
    Balanced ⟨tasks, (a :: outer) :: frames⟩ := by
  obtain ⟨inner, root, hframes, hcount, hroot⟩ := h
  obtain ⟨hnil, -⟩ | ⟨rfl, ⟨v, hv⟩ | ⟨before, v, hv⟩⟩ := hroot
  · cases hnil
  · cases hv
  cases before with
  | nil =>
    -- the root is left: its artifact is the only one of the root frame
    cases hv
    obtain ⟨only, rfl⟩ := List.length_eq_one_iff.1 hcount
    cases hframes
    exact ⟨[], [a], rfl, rfl, .inl ⟨rfl, Nat.le_refl _⟩⟩
  | cons task before =>
    cases hv
    have hlength : inner.length = leaves before + 2 := hcount.trans (by simp [leaves])
    match inner, hlength with
    | frame :: outer :: rest, hlength =>
      cases hframes
      refine ⟨(a :: outer) :: rest, [], rfl, ?_, .inr ⟨rfl, .inr ⟨before, v, rfl⟩⟩⟩
      exact (Nat.succ.inj hlength).trans (leaves_append before [.leave v]).symm

/-- One step keeps the frames balanced. -/
theorem step_balanced {task : Task} {tasks : List Task} {frames : List Frame} {s : State}
    (h : Balanced ⟨task :: tasks, frames⟩) (hs : (step source tasks frames task).outcome = .ok s) :
    Balanced s := by
  cases task with
  | enter t =>
    cases t with
    | token k =>
      cases hk : k.kind.isTrivia with
      | true =>
        simp only [step, Tree.isTrivia, hk, if_true, Run.pure_outcome, Except.ok.injEq] at hs
        exact hs ▸ balanced_skip h
      | false =>
        rw [step_enter_token hk] at hs
        cases hs
        exact balanced_push [] h
    | node rule span children =>
      by_cases hr : rule = .ambiguous
      · subst hr; cases hs
      · rw [step_enter_node hr] at hs
        cases hs
        exact balanced_push children h
  | leave t =>
    obtain ⟨frame, outer, rest, rfl⟩ := h.two_frames
    obtain ⟨a, -, hs⟩ := Run.bind_outcome_ok hs
    cases hs
    exact balanced_pop h

/-- All states of a walk are balanced. -/
theorem reaches_balanced {t : Tree} {s : State} (h : Reaches source t s) : Balanced s := by
  induction h with
  | start => exact start_balanced t
  | next _ hs ih => exact step_balanced ih hs

/-- At the end the root frame is the only one, with one artifact at most. -/
theorem Balanced.root_alone {frames : List Frame} (h : Balanced ⟨[], frames⟩) :
    ∃ frame, frames = [frame] ∧ frame.length ≤ 1 := by
  obtain ⟨inner, root, rfl, hcount, hroot⟩ := h
  obtain rfl : inner = [] := List.length_eq_zero_iff.1 hcount
  obtain ⟨-, hle⟩ | ⟨-, ⟨v, hv⟩ | ⟨before, v, hv⟩⟩ := hroot
  · exact ⟨root, rfl, hle⟩
  · cases hv
  · simp at hv

end Walk

/-! ## The trace -/

namespace TraceLine

def entered? : TraceLine → Option Tree
  | enter t => some t
  | leave .. => none

def left? : TraceLine → Option Tree
  | enter _ => none
  | leave t _ => some t

/-- Some lines lead from the parts that are open before them to those that are open after them,
the innermost one first: only the innermost part is left. -/
inductive Nested : List Tree → List TraceLine → List Tree → Prop where
  | nil (parts : List Tree) : Nested parts [] parts
  | enter {t : Tree} {before after : List Tree} {lines : List TraceLine} :
    Nested (t :: before) lines after → Nested before (.enter t :: lines) after
  | leave {t : Tree} {a : Artifact} {before after : List Tree} {lines : List TraceLine} :
    Nested before lines after → Nested (t :: before) (.leave t a :: lines) after

theorem Nested.append {xs ys zs : List Tree} {ls ms : List TraceLine} (h : Nested xs ls ys)
    (h' : Nested ys ms zs) : Nested xs (ls ++ ms) zs := by
  induction h with
  | nil => exact h'
  | enter _ ih => exact .enter (ih h')
  | leave _ ih => exact .leave (ih h')

end TraceLine

mutual

/-- The parts of a tree, each before its own parts; blanks and comments are none. -/
def Tree.preorder : Tree → List Tree
  | .token k => if k.kind.isTrivia then [] else [.token k]
  | .node rule span children => .node rule span children :: Tree.preorders children

def Tree.preorders : List Tree → List Tree
  | [] => []
  | t :: rest => Tree.preorder t ++ Tree.preorders rest

end

mutual

/-- The parts of a tree, each after its own parts; blanks and comments are none. -/
def Tree.postorder : Tree → List Tree
  | .token k => if k.kind.isTrivia then [] else [.token k]
  | .node rule span children => Tree.postorders children ++ [.node rule span children]

def Tree.postorders : List Tree → List Tree
  | [] => []
  | t :: rest => Tree.postorder t ++ Tree.postorders rest

end

/-- The trace of a run that is to enter the parts `pre` and to leave the parts `post`, with the
parts `before` open at its start and the parts `after` at its end. A run that fails stops on the
way. -/
structure Traced {α : Type} (pre post before after : List Tree) (r : Build α) : Prop where
  entered : r.events.filterMap TraceLine.entered? <+: pre
  left : r.events.filterMap TraceLine.left? <+: post
  nested : ∃ stopped, TraceLine.Nested before r.events stopped
  finished : ∀ a, r.outcome = .ok a → r.events.filterMap TraceLine.entered? = pre ∧
    r.events.filterMap TraceLine.left? = post ∧ TraceLine.Nested before r.events after

namespace Traced

variable {α β : Type} {pre post pre' post' before between after : List Tree}

theorem silent {r : Build α} (h : r.events = []) : Traced [] [] before before r :=
  ⟨by simp [h], by simp [h], ⟨before, h ▸ .nil before⟩, fun _ _ => by simp [h, TraceLine.Nested.nil]⟩

theorem fail (e : Failure) : Traced pre post before after (Run.fail e : Build α) :=
  ⟨List.nil_prefix, List.nil_prefix, ⟨before, .nil before⟩, fun _ h => by cases h⟩

theorem enter (t : Tree) : Traced [t] [] before (t :: before) (Run.emit (TraceLine.enter t)) :=
  ⟨List.prefix_rfl, List.prefix_rfl, ⟨_, .enter (.nil _)⟩, fun _ _ => ⟨rfl, rfl, .enter (.nil _)⟩⟩

theorem leave (t : Tree) (a : Artifact) :
    Traced [] [t] (t :: before) before (Run.emit (TraceLine.leave t a)) :=
  ⟨List.prefix_rfl, List.prefix_rfl, ⟨_, .leave (.nil _)⟩, fun _ _ => ⟨rfl, rfl, .leave (.nil _)⟩⟩

/-- The traces of two runs, one after the other. -/
theorem bind {r : Build α} {f : α → Build β} (h : Traced pre post before between r)
    (h' : ∀ a, Traced pre' post' between after (f a)) :
    Traced (pre ++ pre') (post ++ post') before after (r >>= f) := by
  cases hr : r.outcome with
  | error e =>
    rw [Run.bind_of_error hr]
    exact ⟨h.entered.trans (List.prefix_append _ _), h.left.trans (List.prefix_append _ _), h.nested,
      fun _ ha => by cases ha⟩
  | ok a =>
    obtain ⟨hpre, hpost, hnest⟩ := h.finished a hr
    have hf := h' a
    obtain ⟨stopped, hstopped⟩ := hf.nested
    rw [Run.bind_of_ok hr]
    refine ⟨?_, ?_, ⟨stopped, hnest.append hstopped⟩, fun b hb => ?_⟩
    · rw [List.filterMap_append, hpre]; exact (List.prefix_append_right_inj _).2 hf.entered
    · rw [List.filterMap_append, hpost]; exact (List.prefix_append_right_inj _).2 hf.left
    · obtain ⟨hpre', hpost', hnest'⟩ := hf.finished b hb
      exact ⟨by rw [List.filterMap_append, hpre, hpre'], by rw [List.filterMap_append, hpost, hpost'],
        hnest.append hnest'⟩

/-- A part is entered, its own parts are built, its artifact is made, and it is left. -/
theorem surround {t : Tree} {r : Build (List Artifact)}
    (h : Traced pre post (t :: before) (t :: before) r)
    (make : List Artifact → Except Failure Artifact) :
    Traced (t :: pre) (post ++ [t]) before before (do
      Run.emit (.enter t)
      let parts ← r
      let a ← Run.ofExcept (make parts)
      Run.emit (.leave t a)
      return some a) := by
  have hleave : ∀ a, Traced [] [t] (t :: before) before
      (do Run.emit (.leave t a); return some a : Build (Option Artifact)) :=
    fun a => (Traced.leave t a).bind fun _ => .silent rfl
  have hmake : ∀ parts, Traced [] [t] (t :: before) before (do
      let a ← Run.ofExcept (make parts)
      Run.emit (.leave t a)
      return some a : Build (Option Artifact)) :=
    fun parts => (Traced.silent (Run.ofExcept_events _)).bind hleave
  have hparts := h.bind hmake
  rw [List.append_nil] at hparts
  exact (Traced.enter t).bind fun _ => hparts

end Traced

/-- Building a tree enters its parts in pre-order and leaves them in post-order. -/
theorem traced_artifact (source : String) (t : Tree) : ∀ before,
    Traced t.preorder t.postorder before before (Tree.artifact source t) := by
  induction t using Tree.induction with
  | token k =>
    intro before
    cases hk : k.kind.isTrivia with
    | true =>
      simp only [Tree.artifact, Tree.preorder, Tree.postorder, hk, if_true]
      exact .silent rfl
    | false =>
      simp only [Tree.artifact, Tree.preorder, Tree.postorder, hk, Bool.false_eq_true, if_false]
      exact (Traced.silent (r := pure []) rfl).surround _
  | node rule span children ih =>
    -- each part leaves the entered parts as it found them, so the parts follow each other
    have hchildren : ∀ before, Traced (Tree.preorders children) (Tree.postorders children) before before
        (Tree.artifacts source children) := by
      induction children with
      | nil => exact fun before => .silent rfl
      | cons t rest ihs =>
        intro before
        have hrest := ihs (fun u hu => ih u (List.mem_cons_of_mem _ hu)) before
        have hend : ∀ a : Option Artifact, Traced _ _ before before (do
            let others ← Tree.artifacts source rest
            return a.toList ++ others) := fun a => hrest.bind fun _ => .silent rfl
        simp only [List.append_nil] at hend
        exact (ih t List.mem_cons_self before).bind hend
    intro before
    by_cases hr : rule = .ambiguous
    · subst hr; exact .fail _
    · rw [artifact_node hr]
      exact (hchildren _).surround _

/-- The lines of a trace that a level of detail shows. -/
theorem mapEvents_shown (detail : Nat) (lines : List TraceLine) :
    lines.flatMap (fun l => if l.level ≤ detail then [Event.line l.shown] else []) =
      (lines.filter (·.level ≤ detail)).map fun l => .line l.shown := by
  induction lines with
  | nil => rfl
  | cons l rest ih => by_cases h : l.level ≤ detail <;> simp [h, ih]

/-- The highest level of detail shows all lines. -/
theorem filter_highest {detail : Nat} (h : 3 ≤ detail) (lines : List TraceLine) :
    lines.filter (·.level ≤ detail) = lines := by
  refine List.filter_eq_self.2 fun l _ => decide_eq_true (Nat.le_trans ?_ h)
  cases l <;> simp [TraceLine.level]

/-- **The walk is the recursion.** It gives the same run for every tree, so the same artifact or
the same first failure. A part is only left while its frame and the one around it are there, and at
the end the root frame is alone with one artifact at most. The trace enters parts in pre-order,
leaves them in post-order and is nested; all levels of detail give one outcome, and each shows the
lines of the full trace that are not above it. -/
theorem build_is_recursion (source : String) (t : Tree) :
    t.build source = Tree.artifact source t ∧
      (∀ s, Walk.Reaches source t s → ∀ part tasks, s.tasks = .leave part :: tasks →
        2 ≤ s.frames.length) ∧
      (∀ s, Walk.Reaches source t s → s.tasks = [] →
        ∃ frame, s.frames = [frame] ∧ frame.length ≤ 1) ∧
      (∀ s, (Walk.run source (2 * t.size) (Walk.start t)).outcome = .ok s →
        s.tasks = [] ∧ ∃ frame, s.frames = [frame] ∧ frame.length ≤ 1) ∧
      Traced t.preorder t.postorder [] [] (t.build source) ∧
      ∀ settings : Settings,
        (settings.build source t).outcome = (t.build source).outcome ∧
          (settings.build source t).events =
            ((t.build source).events.filter (·.level ≤ settings.detail)).map
              (fun l => .line l.shown) ∧
          (3 ≤ settings.detail → (settings.build source t).events =
            (t.build source).events.map fun l => .line l.shown) := by
  refine ⟨build_eq_artifact source t, ?_, ?_, ?_, ?_, fun settings => ⟨rfl, ?_, fun hd => ?_⟩⟩
  · rintro ⟨_, frames⟩ hs part tasks rfl
    obtain ⟨frame, outer, rest, rfl⟩ := (Walk.reaches_balanced hs).two_frames
    simp
  · rintro ⟨_, frames⟩ hs rfl
    exact (Walk.reaches_balanced hs).root_alone
  · intro s hs
    rw [run_start] at hs
    obtain ⟨a, -, ha⟩ := Run.bind_outcome_ok hs
    cases ha
    exact ⟨rfl, a.toList, rfl, by cases a <;> simp⟩
  · rw [build_eq_artifact]
    exact traced_artifact source t []
  · exact mapEvents_shown settings.detail _
  · rw [← filter_highest hd (t.build source).events]
    exact mapEvents_shown settings.detail _

end Criterion

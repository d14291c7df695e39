import Q2os.TaskList

/- The parent pointer of every task: sys_wait4 frees a task without a look at its children. -/
namespace Parents
open Process TaskList Run

def parentOf (k : Kernel) (a : Nat) : Nat := (k.task a).parent

/-- The parent of every task that has not been reaped has not been freed. -/
def Parented (k : Kernel) : Prop := ∀ t, k.live t = true → Linkable k (parentOf k t)

/- A call asleep in sys_wait4 waits for a task behind init_task_union.task. -/
def AfterInit (k : Kernel) : Prop := ∀ t w, k.waiting t = some w → w.child ≠ initTask

structure Kept (k : Kernel) : Prop where
  parented : Parented k
  after_init : AfterInit k

/-- No parent dangles behind the step, and an exit wakes no wait queue in freed memory. -/
def NoneDangles (k : Kernel) (e : Event) (k' : Kernel) : Prop :=
  Parented k' ∧ ∀ code, e = .exit code → Linkable k (parentOf k k.current)

def Childless (k : Kernel) (child : Nat) : Prop :=
  ∀ t, k.live t = true → t ≠ child → parentOf k t ≠ child

/-- sys_wait4 frees a task only when no task that is left was forked by it. A task that was
    freed while it ran does not fork, or into its own memory, and does not exit when its parent
    has been freed as well. -/
def Familial (k : Kernel) : Event → Prop
  | .fork tsk => Linkable k k.current ∨ tsk = k.current
  | .exit _ => Linkable k k.current ∨ Linkable k (parentOf k k.current)
  | .wait _ _ child => Childless k child
  | .resume _ _ child => Childless k child
  | _ => True

theorem parent_set_task_same (k : Kernel) (a : Nat) (t : TaskStruct)
    (same : t.parent = parentOf k a) : parentOf (setTask k a t) = parentOf k := by
  funext b
  by_cases at_a : b = a
  · subst at_a
    simp [parentOf, setTask, same]
  · simp [parentOf, setTask, at_a]

@[simp] theorem parent_set_state (k : Kernel) (a : Nat) (s : TaskState) :
    parentOf (setState k a s) = parentOf k :=
  parent_set_task_same k a _ rfl

@[simp] theorem parent_set_wait_childexit (k : Kernel) (a : Nat) (q : List Nat) :
    parentOf (setWaitChildexit k a q) = parentOf k :=
  parent_set_task_same k a _ rfl

@[simp] theorem parent_insert_task_queue (k : Kernel) (a : Nat) :
    parentOf (insertTaskQueue k a) = parentOf k := by
  funext b
  rw [parentOf, task_insert_task_queue, parentOf]

@[simp] theorem parent_wakeup (k : Kernel) (a : Nat) : parentOf (wakeup k a) = parentOf k := by
  unfold wakeup
  split
  · rfl
  · split
    · simp [wakeupProcess]
    · rfl

theorem parent_do_exit (k : Kernel) (code : Nat) : parentOf (doExit k code) = parentOf k := by
  rw [doExit, exitNotify, parent_wakeup, becomeZombie]
  exact parent_set_task_same k k.current _ rfl

theorem parent_sleep_for_child (k : Kernel) (w : Wait) :
    parentOf (sleepForChild k w) = parentOf k := by
  unfold sleepForChild interruptibleSleepOn
  rw [parent_set_wait_childexit, parent_set_state]
  rfl

theorem parent_switch_to (k : Kernel) (next : Nat) : parentOf (switchTo k next) = parentOf k := by
  funext b
  rw [parentOf, task_switch_to, parentOf]

theorem parent_do_fork (k : Kernel) {tsk : Nat} (user : tsk ≠ initTask) :
    parentOf (doFork k tsk) = Function.update (parentOf k) tsk k.current := by
  funext b
  by_cases at_tsk : b = tsk
  · subst at_tsk
    rw [parentOf, task_do_fork_new k user, Function.update_self]
  · rw [Function.update_of_ne at_tsk]
    by_cases at_init : b = initTask
    · subst at_init
      rw [parentOf, task_do_fork_init k user, parentOf]
    · rw [parentOf, task_do_fork_other k at_tsk at_init, parentOf]

theorem parent_reap (k : Kernel) (tsk child : Nat) : parentOf (reap k tsk child) = parentOf k :=
  parent_set_task_same k tsk _ rfl

theorem waiting_sleep_for_child (k : Kernel) (w : Wait) :
    (sleepForChild k w).waiting = Function.update k.waiting k.current (some w) := rfl

theorem waiting_do_exit (k : Kernel) (code : Nat) : (doExit k code).waiting = k.waiting := by
  rw [doExit, exitNotify, wakeup]
  split
  · rfl
  · split
    · rw [waiting_wakeup_process]
      rfl
    · rfl

theorem parented_congr {k k' : Kernel} (parent : parentOf k' = parentOf k)
    (live : k'.live = k.live) : Parented k' ↔ Parented k := by
  unfold Parented Linkable
  rw [parent, live]

theorem boot_kept : Kept boot :=
  ⟨by simp [Parented, boot], by simp [AfterInit, boot]⟩

theorem fork_parented_iff {k : Kernel} {tsk : Nat} (parented : Parented k)
    (user : tsk ≠ initTask) :
    Parented (doFork k tsk) ↔ Linkable k k.current ∨ tsk = k.current := by
  have link : ∀ a, Linkable (doFork k tsk) a ↔ Linkable k a ∨ tsk = a := by
    intro a
    unfold Linkable
    rw [live_do_fork]
    by_cases new : a = tsk
    · simp [new]
    · simp [new, Ne.symm new]
  unfold Parented
  simp only [link, parent_do_fork k user, live_do_fork]
  constructor
  · intro every
    have new := every tsk (Function.update_self ..)
    rwa [Function.update_self] at new
  · intro running t live
    by_cases new : t = tsk
    · rw [new, Function.update_self]
      exact running
    · rw [Function.update_of_ne new] at live ⊢
      exact Or.inl (parented t live)

theorem reap_parented_iff {k : Kernel} {tsk child : Nat} (parented : Parented k)
    (user : child ≠ initTask) : Parented (reap k tsk child) ↔ Childless k child := by
  have link : ∀ a, Linkable (reap k tsk child) a ↔ Linkable k a ∧ a ≠ child := by
    intro a
    unfold Linkable
    rw [live_reap]
    by_cases gone : a = child
    · simp [gone, user]
    · simp [gone]
  have alive : ∀ t, (reap k tsk child).live t = true ↔ k.live t = true ∧ t ≠ child := by
    intro t
    rw [live_reap]
    by_cases gone : t = child
    · simp [gone]
    · simp [gone]
  unfold Parented Childless
  simp only [link, alive, parent_reap]
  constructor
  · intro every t live other
    exact (every t ⟨live, other⟩).2
  · intro childless t left
    exact ⟨parented t left.1, childless t left.1 left.2⟩

theorem search_child_user {k : Kernel} {pid fuel a tsk child : Nat}
    (found : searchChild k pid fuel a = some (some (tsk, child))) : child ≠ initTask := by
  induction fuel generalizing a with
  | zero => cases found
  | succ fuel ih =>
    unfold searchChild at found
    split at found
    · cases found
    · split at found
      · rename_i inside _
        cases found
        exact inside
      · exact ih found

theorem step_after_init {k k' : Kernel} {e : Event} (step : Step k e k') (after : AfterInit k) :
    AfterInit k' := by
  have awakened : AfterInit { k with waiting := Function.update k.waiting k.current none } := by
    intro t w inside
    have inside : Function.update k.waiting k.current none t = some w := inside
    by_cases here : t = k.current
    · rw [here, Function.update_self] at inside
      cases inside
    · rw [Function.update_of_ne here] at inside
      exact after t w inside
  cases step with
  | fork tsk ready fresh other =>
    unfold AfterInit
    rw [waiting_do_fork]
    exact after
  | exit code user ready =>
    unfold AfterInit
    rw [waiting_do_exit]
    exact after
  | wait pid tsk child ready user found dead => exact after
  | sleep pid tsk child ready user found alive =>
    intro t w inside
    rw [waiting_sleep_for_child] at inside
    by_cases here : t = k.current
    · rw [here, Function.update_self] at inside
      cases inside
      exact search_child_user found.choose_spec
    · rw [Function.update_of_ne here] at inside
      exact after t w inside
  | resume pid tsk child awake locals => exact awakened
  | switch next queued =>
    unfold AfterInit
    rw [waiting_switch_to]
    exact after
  | idle empty =>
    unfold AfterInit
    rw [waiting_switch_to]
    exact after
  | forkFails ready => exact after
  | noChild pid fuel options ready user absent => exact after
  | badOptions pid tsk child options ready user found set => exact after
  | stay awake => exact after

theorem step_dangles_iff (k : Kernel) (e : Event) (k' : Kernel) (kept : Kept k)
    (step : Step k e k') : NoneDangles k e k' ↔ Familial k e := by
  have parented := kept.parented
  have quiet : (∀ code, e ≠ .exit code) → (NoneDangles k e k' ↔ Parented k') := by
    intro other
    exact ⟨And.left, fun holds => ⟨holds, fun code same => absurd same (other code)⟩⟩
  cases step with
  | fork tsk ready fresh user =>
    rw [quiet (by rintro code ⟨⟩), fork_parented_iff parented user]
    exact Iff.rfl
  | exit code user ready =>
    have same := parented_congr (parent_do_exit k code) (live_do_exit k code)
    constructor
    · intro none_dangles
      exact Or.inr (none_dangles.2 code rfl)
    · intro familial
      refine ⟨same.mpr parented, fun _ _ => familial.elim (fun running => ?_) id⟩
      exact parented k.current (running.resolve_left user)
  | wait pid tsk child ready user found dead =>
    rw [quiet (by rintro code ⟨⟩),
      reap_parented_iff parented (search_child_user found.choose_spec)]
    exact Iff.rfl
  | sleep pid tsk child ready user found alive =>
    rw [quiet (by rintro code ⟨⟩), parented_congr (parent_sleep_for_child k _) rfl]
    exact iff_of_true parented trivial
  | resume pid tsk child awake locals =>
    rw [quiet (by rintro code ⟨⟩),
      @reap_parented_iff { k with waiting := Function.update k.waiting k.current none } tsk child
        parented (kept.after_init _ _ locals)]
    exact Iff.rfl
  | switch next queued =>
    rw [quiet (by rintro code ⟨⟩), parented_congr (parent_switch_to k next) (live_switch_to k next)]
    exact iff_of_true parented trivial
  | idle empty =>
    rw [quiet (by rintro code ⟨⟩), parented_congr (parent_switch_to k _) (live_switch_to k _)]
    exact iff_of_true parented trivial
  | forkFails ready => exact (quiet (by rintro code ⟨⟩)).trans (iff_of_true parented trivial)
  | noChild pid fuel options ready user absent =>
    exact (quiet (by rintro code ⟨⟩)).trans (iff_of_true parented trivial)
  | badOptions pid tsk child options ready user found set =>
    exact (quiet (by rintro code ⟨⟩)).trans (iff_of_true parented trivial)
  | stay awake => exact (quiet (by rintro code ⟨⟩)).trans (iff_of_true parented trivial)

/-- In a run no parent ever dangles if and only if every sys_wait4 of it frees a childless task,
    and what was freed while it ran neither forks nor exits under a freed parent. -/
theorem none_dangles_iff (k : Kernel) (es : List Event) :
    Steps (Meeting NoneDangles Step) boot es k ↔ Steps (Guarded Familial Step) boot es k :=
  steps_meeting_iff step_dangles_iff
    (fun _ _ _ kept step good => ⟨good.1, step_after_init step kept.after_init⟩) boot_kept

/- Task 1 forks 2 and task 2 forks 3. 2 exits, 1 frees it, and then 3 exits. -/
theorem parent_dangles :
    ∃ es k k', Steps Step boot es k ∧ Step k (.exit 8) k' ∧ k.live 3 = true ∧
      ¬ Linkable k (parentOf k 3) ∧ k.current = 3 ∧ ¬ NoneDangles k (.exit 8) k' := by
  refine ⟨[.fork 1, .schedule (some 1), .fork 2, .schedule (some 2), .fork 3, .exit 7,
      .schedule (some 1), .wait 1 3 2, .schedule (some 3)], _, _,
    .cons (.fork _ 1 ⟨rfl, rfl⟩ rfl (by decide)) <|
    .cons (.switch _ 1 (by decide)) <|
    .cons (.fork _ 2 ⟨rfl, rfl⟩ rfl (by decide)) <|
    .cons (.switch _ 2 (by decide)) <|
    .cons (.fork _ 3 ⟨rfl, rfl⟩ rfl (by decide)) <|
    .cons (.exit _ 7 (by decide) (.inl ⟨rfl, rfl⟩)) <|
    .cons (.switch _ 1 (by decide)) <|
    .cons (.wait _ 1 3 2 ⟨rfl, rfl⟩ (by decide) ⟨2, rfl⟩ rfl) <|
    .cons (.switch _ 3 (by decide)) <| .nil _,
    .exit _ 8 (by decide) (.inl ⟨rfl, rfl⟩), rfl, by decide, rfl, ?_⟩
  intro none_dangles
  exact absurd (none_dangles.2 8 rfl) (by decide)

end Parents

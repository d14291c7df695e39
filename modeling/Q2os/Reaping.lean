import Q2os.TaskList

/- What sys_wait4 frees. The call that slept acts on the child it looked up before: it is
   woken by the exit of any child of its task, and others may reap in between. -/
namespace Reaping
open CircularList Process TaskList Run

/-- The freed task_struct is live, carries the requested pid, is a zombie and is neither
queued nor running. -/
def ReapsDead (k : Kernel) : Event → Kernel → Prop
  | .wait pid _ child, _ | .resume pid _ child, _ =>
    k.live child = true ∧ pidOf k child = pid ∧ stateOf k child = .zombie ∧
      child ∉ k.runQueue ∧ child ≠ k.current
  | _, _ => True

def DeadChild (k : Kernel) (w : Wait) : Prop :=
  k.live w.child = true ∧ pidOf k w.child = w.pid ∧ stateOf k w.child = .zombie

/- The exit wakes a sys_wait4 only for a child that is dead by then: the exiting task, or a
   zombie that is still there. -/
def WakesInTime (k : Kernel) : Prop :=
  match (k.task (k.task k.current).parent).waitChildexit with
  | [] => True
  | sleeper :: _ =>
    stateOf k sleeper = .interruptible → ∀ w ∈ k.waiting sleeper,
      k.live w.child = true ∧ pidOf k w.child = w.pid ∧
        (w.child = k.current ∨ stateOf k w.child = .zombie)

/- No sys_wait4 that was woken and has not run yet is about to free the same child. -/
def Unclaimed (k : Kernel) (child : Nat) : Prop :=
  ∀ t ∈ k.runQueue, ∀ w ∈ k.waiting t, w.child ≠ child

def Timely (k : Kernel) : Event → Prop
  | .exit _ => WakesInTime k
  | .wait _ _ child | .resume _ _ child => Unclaimed k child
  | _ => True

/- The store tsk->next = child->next takes the child off the list, with what has been forked in
   before it, or neither of the two is on the list. -/
def TakesOff (k : Kernel) (tsk child : Nat) : Prop :=
  (∃ pre mid post, Cycle (nextTask k) initTask (pre ++ (mid ++ child :: post)) ∧
    lastNode initTask pre = tsk) ∨
  ∃ tasks, Cycle (nextTask k) initTask tasks ∧ tsk ∉ initTask :: tasks ∧ child ∉ tasks

def InTime (k : Kernel) (e : Event) : Prop :=
  Timely k e ∧ ∀ pid tsk child, e = .resume pid tsk child → TakesOff k tsk child

/- The list from init_task_union.task has no freed task; it may have lost one. -/
structure ListsLive (k : Kernel) : Prop where
  init_kept : k.live initTask = false
  ring : ∃ tasks, Cycle (nextTask k) initTask tasks ∧ ∀ a ∈ tasks, k.live a = true

/-- What holds between the steps: queued tasks run, and a task inside sys_wait4 sleeps or
was woken for a child that is dead. -/
structure Sound (k : Kernel) : Prop where
  listed : ListsLive k
  current_linked : Linkable k k.current
  queue_nodup : k.runQueue.Nodup
  queued : ∀ t ∈ k.runQueue, k.live t = true ∧ stateOf k t = .running ∧ t ≠ k.current
  asleep : ∀ t, stateOf k t = .interruptible → k.live t = true
  waiter : ∀ t w, k.waiting t = some w → k.live t = true ∧
    (stateOf k t = .interruptible ∨
      stateOf k t = .running ∧ (t = k.current ∨ t ∈ k.runQueue) ∧ DeadChild k w)

theorem boot_sound : Sound boot where
  listed := ⟨rfl, [], ⟨rfl, by simp⟩, by simp⟩
  current_linked := Or.inl rfl
  queue_nodup := List.nodup_nil
  queued := by simp [boot]
  asleep := by simp [stateOf, boot]
  waiter := by simp [boot]

theorem Sound.not_init {k : Kernel} (sound : Sound k) {t : Nat} (live : k.live t = true) :
    t ≠ initTask := by
  rintro rfl
  rw [sound.listed.init_kept] at live
  exact Bool.false_ne_true live

theorem lists_live_congr {k k' : Kernel} (next : nextTask k' = nextTask k) (live : k'.live = k.live)
    (listed : ListsLive k) : ListsLive k' := by
  obtain ⟨init_kept, tasks, cycle, held⟩ := listed
  exact ⟨live ▸ init_kept, tasks, next ▸ cycle, fun a member => live ▸ held a member⟩

theorem fork_lists_live {k : Kernel} {tsk : Nat} (listed : ListsLive k) (fresh : k.live tsk = false)
    (user : tsk ≠ initTask) : ListsLive (doFork k tsk) := by
  obtain ⟨init_kept, tasks, cycle, held⟩ := listed
  have apart : tsk ∉ initTask :: tasks := by
    intro member
    have live := held tsk ((List.mem_cons.mp member).resolve_left user)
    rw [fresh] at live
    exact Bool.false_ne_true live
  refine ⟨?_, tsk :: tasks, next_do_fork k user ▸ cycle_push cycle apart, fun a member => ?_⟩
  · rw [live_do_fork, Function.update_of_ne user.symm]
    exact init_kept
  · rw [live_do_fork]
    rcases List.mem_cons.mp member with rfl | old
    · exact Function.update_self ..
    · have other : a ≠ tsk := fun same => apart (List.mem_cons_of_mem initTask (same ▸ old))
      rw [Function.update_of_ne other]
      exact held a old

theorem reap_lists_live {k : Kernel} {tsk child : Nat} {tasks : List Nat}
    (init_kept : k.live initTask = false) (cycle : Cycle (nextTask (reap k tsk child)) initTask tasks)
    (held : ∀ a ∈ tasks, k.live a = true ∧ a ≠ child) : ListsLive (reap k tsk child) := by
  refine ⟨?_, tasks, cycle, fun a member => ?_⟩
  · rw [live_reap, Function.update_apply, init_kept, ite_self]
  · rw [live_reap, Function.update_of_ne (held a member).2]
    exact (held a member).1

theorem wait_lists_live {k : Kernel} {pid tsk child : Nat} (listed : ListsLive k)
    (found : Finds k pid tsk child) :
    k.live child = true ∧ pidOf k child = pid ∧ ListsLive (reap k tsk child) := by
  obtain ⟨init_kept, tasks, cycle, held⟩ := listed
  obtain ⟨inside, points, member, named⟩ := finds_child found cycle
  obtain ⟨rest, cut, kept⟩ := cycle_unlink cycle member inside points
  refine ⟨held child member, named,
    reap_lists_live init_kept (next_reap k tsk child ▸ cut) fun a left => ?_⟩
  obtain ⟨old, other⟩ := (kept a).mp left
  exact ⟨held a old, other⟩

theorem resume_lists_live {k : Kernel} {tsk child : Nat} (listed : ListsLive k)
    (takes : TakesOff k tsk child) : ListsLive (reap k tsk child) := by
  obtain ⟨init_kept, tasks, cycle, held⟩ := listed
  rcases takes with ⟨pre, mid, post, before, rfl⟩ | ⟨all, same, away, gone⟩
  · obtain rfl := cycle_unique cycle before
    refine reap_lists_live init_kept (next_reap k _ child ▸ cycle_cut before) fun a member => ?_
    have inside : a ∈ pre ++ (mid ++ child :: post) := by
      simp only [List.mem_append, List.mem_cons] at member ⊢
      tauto
    refine ⟨held a inside, ?_⟩
    rintro rfl
    have once : ((pre ++ mid) ++ a :: post).Nodup := by
      simpa using (List.nodup_cons.mp before.nodup).2
    have absent := (List.nodup_middle.mp once)
    simp only [List.nodup_cons, List.mem_append] at absent member
    tauto
  · obtain rfl := cycle_unique cycle same
    refine reap_lists_live init_kept (cycle_congr (fun a member => ?_) cycle) fun a member => ?_
    · exact reap_next_off (fun here => away (here ▸ member))
    · exact ⟨held a member, fun here => gone (here ▸ member)⟩

theorem fork_sound {k : Kernel} {tsk : Nat} (sound : Sound k) (fresh : k.live tsk = false)
    (user : tsk ≠ initTask) : Sound (doFork k tsk) := by
  have apart : ∀ t, k.live t = true → t ≠ tsk := by
    rintro t live rfl
    rw [fresh] at live
    exact Bool.false_ne_true live
  have stays : ∀ t, k.live t = true → (doFork k tsk).live t = true := by
    intro t live
    rw [live_do_fork, Function.update_of_ne (apart t live), live]
  have state : ∀ t, t ≠ tsk → stateOf (doFork k tsk) t = stateOf k t := by
    intro t old
    rw [state_do_fork k user, Function.update_of_ne old]
  have current_old : k.current ≠ tsk := by
    rcases sound.current_linked with at_init | live
    · exact at_init ▸ user.symm
    · exact apart _ live
  refine ⟨fork_lists_live sound.listed fresh user, ?_, ?_, ?_, ?_, ?_⟩
  · rw [Linkable, current_do_fork]
    exact sound.current_linked.imp_right (stays k.current)
  · rw [queue_do_fork k user]
    exact List.nodup_cons.mpr
      ⟨fun member => apart tsk (sound.queued tsk member).1 rfl, sound.queue_nodup⟩
  · intro t member
    rw [queue_do_fork k user] at member
    rw [current_do_fork]
    rcases List.mem_cons.mp member with rfl | old
    · exact ⟨by simp, by rw [state_do_fork k user, Function.update_self], current_old.symm⟩
    · obtain ⟨live, running, other⟩ := sound.queued t old
      exact ⟨stays t live, (state t (apart t live)).trans running, other⟩
  · intro t sleeping
    by_cases new : t = tsk
    · rw [new, live_do_fork, Function.update_self]
    · rw [state t new] at sleeping
      exact stays t (sound.asleep t sleeping)
  · intro t w inside
    rw [waiting_do_fork] at inside
    obtain ⟨live, where_is⟩ := sound.waiter t w inside
    refine ⟨stays t live, ?_⟩
    rw [state t (apart t live), current_do_fork, queue_do_fork k user]
    rcases where_is with sleeping | ⟨running, placed, childLive, pid, dead⟩
    · exact Or.inl sleeping
    · refine Or.inr ⟨running, placed.imp_right (List.mem_cons_of_mem tsk), ?_, ?_, ?_⟩
      · exact stays _ childLive
      · rw [pid_do_fork k user (apart _ childLive), pid]
      · rw [state _ (apart _ childLive), dead]

/- Freeing a child that is dead and that no woken call claims. -/
theorem reap_sound {k : Kernel} {tsk child : Nat} (sound : Sound k)
    (kept : ListsLive (reap k tsk child)) (dead : stateOf k child = .zombie)
    (awake : stateOf k k.current = .running) (done : k.waiting k.current = none)
    (unclaimed : Unclaimed k child) : Sound (reap k tsk child) := by
  have stays : ∀ t, t ≠ child → (reap k tsk child).live t = k.live t := by
    intro t other
    rw [live_reap, Function.update_of_ne other]
  have other : ∀ t, stateOf k t ≠ .zombie → t ≠ child := by
    rintro t alive rfl
    exact alive dead
  refine ⟨kept, ?_, sound.queue_nodup, ?_, ?_, ?_⟩
  · refine sound.current_linked.imp_right (fun live => ?_)
    exact (stays k.current (other k.current (by simp [awake]))).trans live
  · intro t member
    obtain ⟨live, running, apart⟩ := sound.queued t member
    rw [state_reap, stays t (other t (by simp [running]))]
    exact ⟨live, running, apart⟩
  · intro t sleeping
    rw [state_reap] at sleeping
    rw [stays t (other t (by simp [sleeping]))]
    exact sound.asleep t sleeping
  · intro t w inside
    have inside : k.waiting t = some w := inside
    obtain ⟨live, where_is⟩ := sound.waiter t w inside
    rw [state_reap]
    rcases where_is with sleeping | ⟨running, placed, childLive, pid, gone⟩
    · rw [stays t (other t (by simp [sleeping]))]
      exact ⟨live, Or.inl sleeping⟩
    · have not_current : t ≠ k.current := by
        rintro rfl
        rw [done] at inside
        simp at inside
      have claims := unclaimed t (placed.resolve_left not_current) w inside
      rw [stays t (other t (by simp [running])), DeadChild, stays _ claims, pid_reap, state_reap]
      exact ⟨live, Or.inr ⟨running, placed, childLive, pid, gone⟩⟩

theorem sleep_sound {k : Kernel} {w : Wait} (sound : Sound k)
    (awake : stateOf k k.current = .running) (user : k.current ≠ initTask) :
    Sound (sleepForChild k w) := by
  have state : ∀ t, t ≠ k.current → stateOf (sleepForChild k w) t = stateOf k t := by
    intro t other
    rw [state_sleep_for_child, Function.update_of_ne other]
  refine ⟨lists_live_congr (next_sleep_for_child k w) (live_sleep_for_child k w) sound.listed,
    sound.current_linked, sound.queue_nodup, ?_, ?_, ?_⟩
  · intro t member
    obtain ⟨live, running, other⟩ := sound.queued t member
    exact ⟨live, (state t other).trans running, other⟩
  · intro t sleeping
    rw [live_sleep_for_child]
    by_cases here : t = k.current
    · rw [here]
      exact sound.current_linked.resolve_left user
    · rw [state t here] at sleeping
      exact sound.asleep t sleeping
  · intro t v inside
    by_cases here : t = k.current
    · subst here
      refine ⟨sound.current_linked.resolve_left user, Or.inl ?_⟩
      rw [state_sleep_for_child, Function.update_self]
    · have before : k.waiting t = some v := by
        have unfolded : (Function.update k.waiting k.current (some w)) t = some v := inside
        rwa [Function.update_of_ne here] at unfolded
      obtain ⟨live, where_is⟩ := sound.waiter t v before
      refine ⟨live, ?_⟩
      rw [state t here]
      rcases where_is with sleeping | ⟨running, placed, childLive, pid, dead⟩
      · exact Or.inl sleeping
      · have elsewhere : v.child ≠ k.current := by
          intro same
          rw [same, awake] at dead
          cases dead
        refine Or.inr ⟨running, placed, childLive, ?_, (state _ elsewhere).trans dead⟩
        rw [pid_sleep_for_child, pid]

theorem zombie_sound {k : Kernel} (code : Nat) (sound : Sound k)
    (outside : k.waiting k.current = none) : Sound (becomeZombie k code) := by
  have state : ∀ t, t ≠ k.current → stateOf (becomeZombie k code) t = stateOf k t := by
    intro t other
    rw [state_become_zombie, Function.update_of_ne other]
  have dead : ∀ t, stateOf k t = .zombie → stateOf (becomeZombie k code) t = .zombie := by
    intro t before
    by_cases here : t = k.current
    · rw [here, state_become_zombie, Function.update_self]
    · rw [state t here, before]
  refine ⟨lists_live_congr (next_become_zombie k code) rfl sound.listed,
    sound.current_linked, sound.queue_nodup, ?_, ?_, ?_⟩
  · intro t member
    obtain ⟨live, running, other⟩ := sound.queued t member
    exact ⟨live, (state t other).trans running, other⟩
  · intro t sleeping
    by_cases here : t = k.current
    · rw [here, state_become_zombie, Function.update_self] at sleeping
      cases sleeping
    · exact sound.asleep t ((state t here).symm.trans sleeping)
  · intro t w inside
    have here : t ≠ k.current := by
      rintro rfl
      cases outside.symm.trans inside
    obtain ⟨live, where_is⟩ := sound.waiter t w inside
    refine ⟨live, ?_⟩
    rw [state t here]
    refine where_is.imp_right (fun ⟨running, placed, childLive, pid, gone⟩ => ?_)
    refine ⟨running, placed, childLive, ?_, dead _ gone⟩
    rw [pid_become_zombie, pid]

theorem wake_sound {k : Kernel} {a t : Nat} {rest : List Nat} (sound : Sound k)
    (asleep : stateOf k t = .interruptible) (other : t ≠ k.current)
    (inTime : ∀ w, k.waiting t = some w → DeadChild k w) :
    Sound (wakeupProcess (setWaitChildexit k a rest) t) := by
  have live := sound.asleep t asleep
  have user := sound.not_init live
  have state : ∀ u, u ≠ t →
      stateOf (wakeupProcess (setWaitChildexit k a rest) t) u = stateOf k u := by
    intro u apart
    rw [state_wakeup_process, Function.update_of_ne apart]
  have dead : ∀ w, DeadChild k w →
      DeadChild (wakeupProcess (setWaitChildexit k a rest) t) w := by
    rintro w ⟨childLive, pid, gone⟩
    have apart : w.child ≠ t := by
      rintro rfl
      rw [asleep] at gone
      cases gone
    refine ⟨?_, ?_, ?_⟩
    · rw [live_wakeup_process]; exact childLive
    · rw [pid_wakeup_process]; exact pid
    · rw [state _ apart]; exact gone
  refine ⟨lists_live_congr (by simp) (by simp [setWaitChildexit, setTask]) sound.listed,
    ?_, ?_, ?_, ?_, ?_⟩
  · rw [Linkable, current_wakeup_process, live_wakeup_process]
    exact sound.current_linked
  · rw [queue_wakeup_process k a rest user]
    refine List.nodup_cons.mpr ⟨fun member => ?_, sound.queue_nodup⟩
    have running := (sound.queued t member).2.1
    rw [asleep] at running
    cases running
  · intro u member
    rw [queue_wakeup_process k a rest user] at member
    rw [live_wakeup_process, current_wakeup_process]
    rcases List.mem_cons.mp member with rfl | old
    · refine ⟨live, ?_, other⟩
      rw [state_wakeup_process, Function.update_self]
    · obtain ⟨queuedLive, running, apart⟩ := sound.queued u old
      refine ⟨queuedLive, ?_, apart⟩
      rw [state u (by rintro rfl; rw [asleep] at running; cases running), running]
  · intro u sleeping
    rw [live_wakeup_process]
    by_cases here : u = t
    · exact here ▸ live
    · exact sound.asleep u ((state u here).symm.trans sleeping)
  · intro u w inside
    rw [waiting_wakeup_process] at inside
    rw [live_wakeup_process, current_wakeup_process, queue_wakeup_process k a rest user]
    by_cases here : u = t
    · subst here
      refine ⟨live, Or.inr ⟨?_, Or.inr List.mem_cons_self, dead w (inTime w inside)⟩⟩
      rw [state_wakeup_process, Function.update_self]
    · obtain ⟨waiterLive, where_is⟩ := sound.waiter u w inside
      refine ⟨waiterLive, ?_⟩
      rw [state u here]
      refine where_is.imp_right fun held => ?_
      obtain ⟨running, placed, gone⟩ := held
      exact ⟨running, placed.imp_right (List.mem_cons_of_mem t), dead w gone⟩

theorem exit_sound {k : Kernel} (code : Nat) (sound : Sound k)
    (outside : k.waiting k.current = none) (inTime : WakesInTime k) :
    Sound (doExit k code) := by
  have zombie := zombie_sound code sound outside
  have woken := wakeup_wakes (becomeZombie k code) (k.task k.current).parent
  rw [doExit, exitNotify, parent_become_zombie]
  change Sound (wakeup (becomeZombie k code) (k.task k.current).parent)
  revert woken
  generalize wakeup (becomeZombie k code) (k.task k.current).parent = after
  intro woken
  cases woken with
  | none => exact zombie
  | first t rest waits asleep =>
    have other : t ≠ k.current := by
      rintro rfl
      rw [state_become_zombie, Function.update_self] at asleep
      cases asleep
    rw [state_become_zombie, Function.update_of_ne other] at asleep
    refine wake_sound zombie ?_ other ?_
    · rw [state_become_zombie, Function.update_of_ne other, asleep]
    · intro w inside
      rw [waits_become_zombie] at waits
      rw [WakesInTime, waits] at inTime
      obtain ⟨live, pid, gone⟩ := inTime asleep w inside
      refine ⟨live, (congrFun (pid_become_zombie k code) w.child).trans pid, ?_⟩
      rw [state_become_zombie]
      by_cases here : w.child = k.current
      · rw [here, Function.update_self]
      · rw [Function.update_of_ne here]
        exact gone.resolve_left here

theorem switch_sound {k : Kernel} {next : Nat} (sound : Sound k)
    (known : next ∈ k.runQueue ∨ k.runQueue = [] ∧ next = initTask) :
    Sound (switchTo k next) := by
  have state : stateOf (switchTo k next) = stateOf k := by
    funext t
    rw [stateOf, task_switch_to, stateOf]
  have not_queued : k.current ∉ k.runQueue :=
    fun member => (sound.queued k.current member).2.2 rfl
  have left : ∀ t ∈ k.runQueue.erase next, t ∈ k.runQueue ∧ t ≠ next := by
    intro t member
    exact ((List.Nodup.mem_erase_iff sound.queue_nodup).mp member).symm
  refine ⟨lists_live_congr (next_switch_to k next) (live_switch_to k next) sound.listed,
    ?_, ?_, ?_, ?_, ?_⟩
  · rw [Linkable, live_switch_to]
    rcases known with queued | ⟨-, idle⟩
    · exact Or.inr (sound.queued next queued).1
    · exact Or.inl idle
  · rw [queue_switch_to]
    split
    · exact List.nodup_cons.mpr
        ⟨fun member => not_queued (left _ member).1, sound.queue_nodup.erase next⟩
    · exact sound.queue_nodup.erase next
  · intro t member
    rw [live_switch_to, state]
    have old : t ∈ k.runQueue.erase next →
        k.live t = true ∧ stateOf k t = .running ∧ t ≠ next := by
      intro inErase
      obtain ⟨queued, apart⟩ := left t inErase
      exact ⟨(sound.queued t queued).1, (sound.queued t queued).2.1, apart⟩
    rw [queue_switch_to] at member
    split at member
    · next preempted =>
      rcases List.mem_cons.mp member with rfl | inErase
      · refine ⟨sound.current_linked.resolve_left preempted.2, preempted.1, ?_⟩
        rintro same
        rcases known with queued | ⟨-, idle⟩
        · exact not_queued (same ▸ queued)
        · exact preempted.2 (same.trans idle)
      · exact old inErase
    · exact old member
  · intro t sleeping
    rw [live_switch_to]
    exact sound.asleep t (state ▸ sleeping)
  · intro t w inside
    rw [waiting_switch_to] at inside
    obtain ⟨live, where_is⟩ := sound.waiter t w inside
    rw [live_switch_to, state, queue_switch_to]
    refine ⟨live, where_is.imp_right fun held => ?_⟩
    obtain ⟨running, placed, childLive, pid, dead⟩ := held
    refine ⟨running, ?_, (live_switch_to k next).symm ▸ childLive, ?_, state ▸ dead⟩
    · by_cases chosen : t = next
      · exact Or.inl chosen
      · right
        rcases placed with rfl | queued
        · rw [if_pos ⟨running, sound.not_init live⟩]
          exact List.mem_cons_self
        · have stays := (List.Nodup.mem_erase_iff sound.queue_nodup).mpr ⟨chosen, queued⟩
          split
          · exact List.mem_cons_of_mem _ stays
          · exact stays
    · rw [pidOf, task_switch_to]
      exact pid

theorem zombie_outside {k : Kernel} {t : Nat} (sound : Sound k) (dead : stateOf k t = .zombie) :
    k.waiting t = none := by
  cases inside : k.waiting t with
  | none => rfl
  | some w =>
    rcases (sound.waiter t w inside).2 with sleeping | ⟨running, -⟩
    · cases dead.symm.trans sleeping
    · cases dead.symm.trans running

/- The call that resumes has left its wait, so nothing speaks about its locals any more. -/
theorem awaken_sound {k : Kernel} (sound : Sound k) :
    Sound { k with waiting := Function.update k.waiting k.current none } := by
  refine ⟨⟨sound.listed.init_kept, sound.listed.ring⟩, sound.current_linked, sound.queue_nodup,
    sound.queued, sound.asleep, ?_⟩
  intro t w inside
  have inside : Function.update k.waiting k.current none t = some w := inside
  by_cases here : t = k.current
  · rw [here, Function.update_self] at inside
    cases inside
  · rw [Function.update_of_ne here] at inside
    exact sound.waiter t w inside

theorem zombie_apart {k : Kernel} {child : Nat} (sound : Sound k)
    (awake : stateOf k k.current = .running) (dead : stateOf k child = .zombie) :
    child ∉ k.runQueue ∧ child ≠ k.current := by
  constructor
  · intro queued
    cases dead.symm.trans (sound.queued child queued).2.1
  · rintro rfl
    cases dead.symm.trans awake

theorem resumed_child {k : Kernel} {w : Wait} (sound : Sound k)
    (awake : stateOf k k.current = .running) (locals : k.waiting k.current = some w) :
    DeadChild k w := by
  rcases (sound.waiter k.current w locals).2 with sleeping | ⟨-, -, dead⟩
  · cases awake.symm.trans sleeping
  · exact dead

theorem step_sound (k : Kernel) (e : Event) (k' : Kernel) (sound : Sound k)
    (step : Guarded InTime Step k e k') : Sound k' ∧ ReapsDead k e k' := by
  obtain ⟨step, timely, takes⟩ := step
  cases step with
  | fork tsk ready fresh user => exact ⟨fork_sound sound fresh user, trivial⟩
  | exit code user ready =>
    refine ⟨exit_sound code sound ?_ timely, trivial⟩
    rcases ready with ready | dead
    · exact ready.2
    · exact zombie_outside sound dead
  | wait pid tsk child ready user found dead =>
    obtain ⟨live, named, left⟩ := wait_lists_live sound.listed found
    exact ⟨reap_sound sound left dead ready.1 ready.2 timely, live, named, dead,
      zombie_apart sound ready.1 dead⟩
  | sleep pid tsk child ready user found alive => exact ⟨sleep_sound sound ready.1 user, trivial⟩
  | resume pid tsk child awake locals =>
    obtain ⟨live, named, dead⟩ := resumed_child sound awake locals
    have left := awaken_sound sound
    refine ⟨reap_sound left (resume_lists_live left.listed (takes pid tsk child rfl)) dead awake
      (Function.update_self ..) ?_, live, named, dead, zombie_apart sound awake dead⟩
    intro t queued w inside
    have inside : Function.update k.waiting k.current none t = some w := inside
    rw [Function.update_of_ne (sound.queued t queued).2.2] at inside
    exact timely t queued w inside
  | switch next queued => exact ⟨switch_sound sound (Or.inl queued), trivial⟩
  | idle empty => exact ⟨switch_sound sound (Or.inr ⟨empty, rfl⟩), trivial⟩
  | forkFails ready => exact ⟨sound, trivial⟩
  | noChild pid fuel options ready user absent => exact ⟨sound, trivial⟩
  | badOptions pid tsk child options ready user found set => exact ⟨sound, trivial⟩
  | stay awake => exact ⟨sound, trivial⟩

/-- As long as waiters are woken for dead children only, no child is claimed twice and a resumed
call takes its child off the list, every sys_wait4 frees a dead child with the requested pid, once. -/
theorem wait_reaps_the_dead (k : Kernel) (es : List Event)
    (run : Steps (Guarded InTime Step) boot es k) :
    Steps (Meeting ReapsDead (Guarded InTime Step)) boot es k :=
  steps_meeting step_sound run boot_sound

/- A woken call that runs next frees its child, whatever has become of it. -/
theorem woken_frees {k : Kernel} {t : Nat} {w : Wait} (queued : t ∈ k.runQueue)
    (running : stateOf k t = .running) (inside : k.waiting t = some w)
    (alive : ¬ DeadChild k w) :
    ∃ k₁ k₂, Step k (.schedule (some t)) k₁ ∧ Step k₁ (.resume w.pid w.tsk w.child) k₂ ∧
      ¬ ReapsDead k₁ (.resume w.pid w.tsk w.child) k₂ := by
  have task : (switchTo k t).task = k.task := task_switch_to k t
  refine ⟨switchTo k t, _, .switch k t queued, .resume _ w.pid w.tsk w.child ?_ ?_, ?_⟩
  · change stateOf (switchTo k t) t = .running
    rw [stateOf, task]
    exact running
  · exact (congrFun (waiting_switch_to k t) t).trans inside
  · rintro ⟨live, pid, dead, -⟩
    refine alive ⟨(live_switch_to k t) ▸ live, ?_, ?_⟩
    · rwa [pidOf, task] at pid
    · rwa [stateOf, task] at dead

/- Waking a call for a child that is not dead is enough for it to free that child. -/
theorem late_wakeup_frees {k k' : Kernel} {code : Nat} (sound : Sound k)
    (step : Step k (.exit code) k') (late : ¬ WakesInTime k) :
    ∃ e₁ k₁ e₂ k₂, Step k' e₁ k₁ ∧ Step k₁ e₂ k₂ ∧ ¬ ReapsDead k₁ e₂ k₂ := by
  cases step with
  | exit _ user ready =>
    unfold WakesInTime at late
    split at late
    · exact absurd trivial late
    · next t rest waits =>
      simp only [not_forall] at late
      obtain ⟨asleep, w, inside, alive⟩ := late
      have other : t ≠ k.current := by
        rintro rfl
        rcases ready with ready | dead
        · cases asleep.symm.trans ready.1
        · cases asleep.symm.trans dead
      have user : t ≠ initTask := sound.not_init (sound.asleep t asleep)
      have woken : doExit k code = wakeupProcess (setWaitChildexit (becomeZombie k code)
          (k.task k.current).parent rest) t := by
        rw [doExit, exitNotify, parent_become_zombie]
        change wakeup (becomeZombie k code) (k.task k.current).parent = _
        rw [wakeup, waits_become_zombie, waits]
        dsimp only
        rw [state_become_zombie, Function.update_of_ne other, if_pos asleep]
      have stays : ¬ DeadChild (doExit k code) w := by
        rintro ⟨live, pid, dead⟩
        apply alive
        rw [live_do_exit] at live
        rw [woken, pid_wakeup_process, pid_become_zombie] at pid
        refine ⟨live, pid, ?_⟩
        by_cases here : w.child = k.current
        · exact Or.inl here
        · right
          have apart : w.child ≠ t := by
            intro same
            rw [woken, state_wakeup_process, same, Function.update_self] at dead
            cases dead
          rwa [woken, state_wakeup_process, Function.update_of_ne apart, state_become_zombie,
            Function.update_of_ne here] at dead
      obtain ⟨k₁, k₂, first, second, wrong⟩ := woken_frees (k := doExit k code) (t := t) (w := w)
        (by rw [woken, queue_wakeup_process _ _ rest user]; exact List.mem_cons_self)
        (by rw [woken, state_wakeup_process, Function.update_self])
        (by rw [woken, waiting_wakeup_process]; exact inside) stays
      exact ⟨_, k₁, _, k₂, first, second, wrong⟩

/- Freeing a child that a woken call claims is enough for it to be freed twice. -/
theorem claimed_freed_twice {k : Kernel} {tsk child : Nat} (sound : Sound k)
    (claimed : ¬ Unclaimed k child) :
    ∃ e₁ k₁ e₂ k₂, Step (reap k tsk child) e₁ k₁ ∧ Step k₁ e₂ k₂ ∧ ¬ ReapsDead k₁ e₂ k₂ := by
  unfold Unclaimed at claimed
  push Not at claimed
  obtain ⟨t, queued, w, inside, rfl⟩ := claimed
  obtain ⟨k₁, k₂, first, second, wrong⟩ :=
    woken_frees (k := reap k tsk w.child) (t := t) (w := w) queued
      (by rw [state_reap]; exact (sound.queued t queued).2.1) inside
      (by rintro ⟨live, -⟩; simp at live)
  exact ⟨_, k₁, _, k₂, first, second, wrong⟩

instance (k : Kernel) (child : Nat) : Decidable (Unclaimed k child) := by
  unfold Unclaimed
  infer_instance

instance (k : Kernel) : Decidable (WakesInTime k) := by
  unfold WakesInTime
  split <;> infer_instance

instance (k : Kernel) : (e : Event) → Decidable (Timely k e)
  | .exit _ => inferInstanceAs (Decidable (WakesInTime k))
  | .wait _ _ child | .resume _ _ child => inferInstanceAs (Decidable (Unclaimed k child))
  | .fork _ | .forkFails | .waitFails .. | .sleep .. | .schedule _ => inferInstanceAs (Decidable True)

/- A child that forks and exits while its parent sleeps, and one that is dead before the call. The
   task forked in between is lost to the list with the first child. -/
theorem wait_reaps_the_dead_two_children :
    ∃ es k, k.live 2 = false ∧ k.live 4 = false ∧
      Steps (Meeting ReapsDead (Guarded InTime Step)) boot es k := by
  obtain ⟨k, run, freed, second⟩ : ∃ k, Steps (Guarded InTime Step) boot
      [.fork 1, .schedule (some 1), .fork 2, .sleep 1 0 2, .schedule (some 2), .fork 3, .exit 7,
        .schedule (some 1), .resume 1 0 2, .fork 4, .schedule (some 4), .exit 8,
        .schedule (some 1), .wait 3 0 4] k ∧ k.live 2 = false ∧ k.live 4 = false :=
    ⟨_,
      .cons ⟨.fork _ 1 ⟨rfl, rfl⟩ rfl (by decide), by decide, nofun⟩ <|
      .cons ⟨.switch _ 1 (by decide), by decide, nofun⟩ <|
      .cons ⟨.fork _ 2 ⟨rfl, rfl⟩ rfl (by decide), by decide, nofun⟩ <|
      .cons ⟨.sleep _ 1 0 2 ⟨rfl, rfl⟩ (by decide) ⟨1, rfl⟩ (by decide), by decide, nofun⟩ <|
      .cons ⟨.switch _ 2 (by decide), by decide, nofun⟩ <|
      .cons ⟨.fork _ 3 ⟨rfl, rfl⟩ rfl (by decide), by decide, nofun⟩ <|
      .cons ⟨.exit _ 7 (by decide) (.inl ⟨rfl, rfl⟩), by decide, nofun⟩ <|
      .cons ⟨.switch _ 1 (by decide), by decide, nofun⟩ <|
      .cons ⟨.resume _ 1 0 2 rfl rfl, by decide, fun _ _ _ same => by
        cases same
        exact .inl ⟨[], [3], [1], ⟨⟨rfl, rfl, rfl, rfl⟩, by decide⟩, rfl⟩⟩ <|
      .cons ⟨.fork _ 4 ⟨rfl, rfl⟩ rfl (by decide), by decide, nofun⟩ <|
      .cons ⟨.switch _ 4 (by decide), by decide, nofun⟩ <|
      .cons ⟨.exit _ 8 (by decide) (.inl ⟨rfl, rfl⟩), by decide, nofun⟩ <|
      .cons ⟨.switch _ 1 (by decide), by decide, nofun⟩ <|
      .cons ⟨.wait _ 3 0 4 ⟨rfl, rfl⟩ (by decide) ⟨1, rfl⟩ rfl, by decide, nofun⟩ <| .nil _,
      rfl, rfl⟩
  exact ⟨_, k, freed, second, wait_reaps_the_dead k _ run⟩

/- The first two conditions are not enough: where tsk is freed before the sleeping call resumes, the
   child stays on the list, and the next call for it frees it again. -/
theorem freed_predecessor_frees_twice :
    ∃ es k k', Steps (Guarded Timely Step) boot es k ∧ Step k (.wait 1 0 2) k' ∧
      k.live 2 = false ∧ ¬ ReapsDead k (.wait 1 0 2) k' := by
  refine ⟨[.fork 1, .schedule (some 1), .fork 2, .schedule (some 2), .fork 3, .schedule (some 1),
      .sleep 1 3 2, .schedule (some 3), .exit 7, .schedule (some 2), .wait 2 0 3, .exit 8,
      .schedule (some 1), .resume 1 3 2], _, _,
    .cons ⟨.fork _ 1 ⟨rfl, rfl⟩ rfl (by decide), by decide⟩ <|
    .cons ⟨.switch _ 1 (by decide), by decide⟩ <|
    .cons ⟨.fork _ 2 ⟨rfl, rfl⟩ rfl (by decide), by decide⟩ <|
    .cons ⟨.switch _ 2 (by decide), by decide⟩ <|
    .cons ⟨.fork _ 3 ⟨rfl, rfl⟩ rfl (by decide), by decide⟩ <|
    .cons ⟨.switch _ 1 (by decide), by decide⟩ <|
    .cons ⟨.sleep _ 1 3 2 ⟨rfl, rfl⟩ (by decide) ⟨2, rfl⟩ (by decide), by decide⟩ <|
    .cons ⟨.switch _ 3 (by decide), by decide⟩ <|
    .cons ⟨.exit _ 7 (by decide) (.inl ⟨rfl, rfl⟩), by decide⟩ <|
    .cons ⟨.switch _ 2 (by decide), by decide⟩ <|
    .cons ⟨.wait _ 2 0 3 ⟨rfl, rfl⟩ (by decide) ⟨1, rfl⟩ rfl, by decide⟩ <|
    .cons ⟨.exit _ 8 (by decide) (.inl ⟨rfl, rfl⟩), by decide⟩ <|
    .cons ⟨.switch _ 1 (by decide), by decide⟩ <|
    .cons ⟨.resume _ 1 3 2 rfl rfl, by decide⟩ <| .nil _,
    .wait _ 1 0 2 ⟨rfl, rfl⟩ (by decide) ⟨1, rfl⟩ rfl, rfl, ?_⟩
  rintro ⟨live, -⟩
  exact absurd live (by decide)

/- Two children: the parent waits for 2, the exit of 3 wakes it, and it frees 2, which is
   running and on the run queue. -/
theorem wait_reaps_the_living :
    ∃ es k k', Steps Step boot es k ∧ Step k (.resume 1 3 2) k' ∧
      stateOf k 2 = .running ∧ 2 ∈ k.runQueue ∧ k'.live 2 = false ∧
      ¬ ReapsDead k (.resume 1 3 2) k' := by
  refine ⟨[.fork 1, .schedule (some 1), .fork 2, .fork 3, .sleep 1 3 2, .schedule (some 3),
      .exit 7, .schedule (some 1)], _, _,
    .cons (.fork _ 1 ⟨rfl, rfl⟩ rfl (by decide)) <|
    .cons (.switch _ 1 (by decide)) <|
    .cons (.fork _ 2 ⟨rfl, rfl⟩ rfl (by decide)) <|
    .cons (.fork _ 3 ⟨rfl, rfl⟩ rfl (by decide)) <|
    .cons (.sleep _ 1 3 2 ⟨rfl, rfl⟩ (by decide) ⟨2, rfl⟩ (by decide)) <|
    .cons (.switch _ 3 (by decide)) <|
    .cons (.exit _ 7 (by decide) (.inl ⟨rfl, rfl⟩)) <|
    .cons (.switch _ 1 (by decide)) <| .nil _,
    .resume _ 1 3 2 rfl rfl, rfl, by decide, rfl, ?_⟩
  rintro ⟨-, -, dead, -⟩
  exact absurd dead (by decide)

end Reaping

import Q2os.RunQueue

/- What one call of schedule decides: the task that runs after it and what it makes of the time
   slice, from the state before the call; and both over whole runs. -/
namespace RunQueue
open CircularList KernelList Run

def picked (s : Schedule) (xs : List Nat) : Nat := firstNode xs s.initTask

def Leaves (s : Schedule) (tsk : Nat) : Prop :=
  (s.vrunTime tsk).sle (s.vrunTime s.current) ∨ s.state s.current ≠ taskRunning

instance (s : Schedule) (tsk : Nat) : Decidable (Leaves s tsk) :=
  inferInstanceAs (Decidable (_ ∨ _))

def Runnable (s : Schedule) (n : Nat) : Prop :=
  n ≠ s.initTask ∧ (n = s.current ∧ s.state n = taskRunning ∨ InQueue s n)

/-- After schedule a runnable task with the least vrun_time runs, the idle task only if there is
no runnable one. -/
def PicksLeast (s t : Schedule) : Prop :=
  Runnable s t.current ∧ (∀ n, Runnable s n → NotLater s.vrunTime t.current n) ∨
    t.current = s.initTask ∧ ∀ n, ¬ Runnable s n

/- The vrun_time of the idle task does not decide. -/
structure IdleLast (s : Schedule) : Prop where
  idle : s.current = s.initTask → s.state s.current = taskRunning → ∀ n, InQueue s n →
    ∃ m, InQueue s m ∧ NotLater s.vrunTime m s.current
  alone : s.current ≠ s.initTask → s.state s.current = taskRunning → (∀ n, ¬ InQueue s n) →
    (s.vrunTime s.current).toInt < (s.vrunTime s.initTask).toInt

/- The current task does not go back to the queue, and a queued one leaves it. -/
def GivesWay (s : Schedule) : Prop :=
  s.state s.current ≠ taskRunning ∨
    s.current = s.initTask ∧ ∃ m, InQueue s m ∧ NotLater s.vrunTime m s.current

/- The slice is given out again: it is spent exactly, and at most four tasks share it. -/
structure Refills (s : Schedule) : Prop where
  spent : s.cpuExecTaskJiffies = 0
  shared : s.runningTaskCount ≤ 4 ∨ s.runningTaskCount = 5 ∧ GivesWay s

theorem get_next_task_picked {s : Schedule} {xs : List Nat} (ring : Ring s.links taskQueue xs) :
    (getNextTask s).1 = picked s xs ∧ (getNextTask s).2.runningTaskCount =
      s.runningTaskCount - if xs = [] then 0 else 1 := by
  cases xs with
  | nil =>
    have flag := (list_is_empty_iff ring).mpr rfl
    simp [getNextTask, flag, picked, firstNode]
  | cons x rest =>
    have flag : listIsEmpty s.links taskQueue = false := by
      simpa using list_is_empty_iff ring
    have first : s.links.next taskQueue = x := ring.forward.1
    simp [getNextTask, flag, first, picked, firstNode]

theorem leaves_running {s : Schedule} {tsk : Nat} (leaves : Leaves s tsk)
    (running : s.state s.current = taskRunning) : NotLater s.vrunTime tsk s.current := by
  have sooner := leaves.resolve_right (not_not_intro running)
  unfold BitVec.sle at sooner
  exact of_decide_eq_true sooner

theorem stays_running {s : Schedule} {tsk : Nat} (stays : ¬ Leaves s tsk) :
    s.state s.current = taskRunning ∧
      (s.vrunTime s.current).toInt < (s.vrunTime tsk).toInt := by
  obtain ⟨later, running⟩ := not_or.mp stays
  refine ⟨not_not.mp running, ?_⟩
  unfold BitVec.sle at later
  rw [decide_eq_true_eq, Int.not_le] at later
  exact later

theorem schedule_cases {s t : Schedule} {xs : List Nat} {fuel : Nat} (h : Balanced s xs)
    (returned : schedule fuel s = some t) : ∃ mid rest,
    Taken (setNeedSchedule s false) (picked s xs) mid rest ∧
    mid.runningTaskCount = (s.runningTaskCount - if xs = [] then 0 else 1) ∧
    (Leaves s (picked s xs) ∧ (∃ u v, insertCurrent fuel mid = some u ∧
        setJiffies u (picked s xs) = some v ∧ t = { v with current := picked s xs }) ∨
      ¬ Leaves s (picked s xs) ∧ ∃ u, insertTaskQueue fuel mid (picked s xs) = some u ∧
        setJiffies u (picked s xs) = some t) := by
  have calm := balanced_need h false
  obtain ⟨rest, taken, -⟩ := get_next_task_taken calm
  obtain ⟨first, count⟩ := get_next_task_picked calm.queue.ring
  have first : (getNextTask (setNeedSchedule s false)).1 = picked s xs := first
  rw [first] at taken
  have same := taken.same
  have test : ((getNextTask (setNeedSchedule s false)).2.vrunTime (picked s xs)).sle
      ((getNextTask (setNeedSchedule s false)).2.vrunTime
        (getNextTask (setNeedSchedule s false)).2.current) = true ∨
      (getNextTask (setNeedSchedule s false)).2.state
        (getNextTask (setNeedSchedule s false)).2.current ≠ taskRunning ↔
      Leaves s (picked s xs) := by
    rw [same]
    exact Iff.rfl
  refine ⟨_, rest, taken, count, ?_⟩
  simp only [schedule, first, test] at returned
  by_cases leaves : Leaves s (picked s xs)
  · rw [if_pos leaves] at returned
    obtain ⟨u, inserted, after⟩ := Option.bind_eq_some_iff.mp returned
    obtain ⟨v, sliced, made⟩ := Option.bind_eq_some_iff.mp after
    exact Or.inl ⟨leaves, u, v, inserted, sliced, (Option.some.inj made).symm⟩
  · rw [if_neg leaves] at returned
    obtain ⟨u, inserted, sliced⟩ := Option.bind_eq_some_iff.mp returned
    exact Or.inr ⟨leaves, u, inserted, sliced⟩

theorem schedule_current {s t : Schedule} {xs : List Nat} {fuel : Nat} (h : Balanced s xs)
    (returned : schedule fuel s = some t) :
    t.current = if Leaves s (picked s xs) then picked s xs else s.current := by
  obtain ⟨mid, rest, taken, -, way⟩ := schedule_cases h returned
  rcases way with ⟨leaves, u, v, -, -, made⟩ | ⟨stays, u, inserted, sliced⟩
  · rw [if_pos leaves, made]
  · rw [if_neg stays, (set_jiffies_frame sliced).2.1, (insert_task_queue_frame inserted).2.1]
    exact (taken_state taken).2.1

theorem queued_iff {s : Schedule} {xs : List Nat} (h : Balanced s xs) (n : Nat) :
    InQueue s n ↔ n ∈ xs := inQueue_iff h.queue.ring n

theorem head_least {s : Schedule} {x : Nat} {rest : List Nat} (h : Balanced s (x :: rest))
    {n : Nat} (queued : InQueue s n) : NotLater s.vrunTime x n := by
  rcases List.mem_cons.mp ((queued_iff h n).mp queued) with rfl | later
  · exact Int.le_refl _
  · exact (List.pairwise_cons.mp h.queue.sorted).1 n later

theorem alone_least_iff {s t : Schedule} (h : Balanced s [])
    (current : t.current = if Leaves s s.initTask then s.initTask else s.current) :
    PicksLeast s t ↔ IdleLast s := by
  have none : ∀ n, ¬ InQueue s n := fun n queued => List.not_mem_nil ((queued_iff h n).mp queued)
  by_cases leaves : Leaves s s.initTask
  · rw [if_pos leaves] at current
    have at_idle : ¬ Runnable s t.current := fun runnable => runnable.1 current
    constructor
    · intro least
      have nobody := (least.resolve_left fun both => at_idle both.1).2
      constructor
      · exact fun _ _ n queued => absurd queued (none n)
      · exact fun work running _ => absurd ⟨work, Or.inl ⟨rfl, running⟩⟩ (nobody s.current)
    · intro last
      refine Or.inr ⟨current, fun n runnable => ?_⟩
      obtain ⟨work, here⟩ := runnable
      obtain ⟨rfl, running⟩ := here.resolve_right (none n)
      have before := last.alone work running none
      have after := leaves_running leaves running
      unfold NotLater at after
      omega
  · rw [if_neg leaves] at current
    obtain ⟨running, before⟩ := stays_running leaves
    have work : s.current ≠ s.initTask := by
      intro at_idle
      rw [at_idle] at before
      exact absurd before (Int.lt_irrefl _)
    have runs : Runnable s s.current := ⟨work, Or.inl ⟨rfl, running⟩⟩
    constructor
    · intro _
      exact ⟨fun at_idle => absurd at_idle work, fun _ _ _ => before⟩
    · intro _
      refine Or.inl ⟨current ▸ runs, fun n runnable => ?_⟩
      obtain ⟨rfl, -⟩ := runnable.2.resolve_right (none n)
      rw [current]
      exact Int.le_refl _

theorem queued_least_iff {s t : Schedule} {x : Nat} {rest : List Nat}
    (h : Balanced s (x :: rest)) (current : t.current = if Leaves s x then x else s.current) :
    PicksLeast s t ↔ IdleLast s := by
  have queued : InQueue s x := (queued_iff h x).mpr List.mem_cons_self
  have work : x ≠ s.initTask := ((h.members x).mp List.mem_cons_self).2.2.1
  have alone : s.current ≠ s.initTask → s.state s.current = taskRunning →
      (∀ n, ¬ InQueue s n) → (s.vrunTime s.current).toInt < (s.vrunTime s.initTask).toInt :=
    fun _ _ none => absurd queued (none x)
  by_cases leaves : Leaves s x
  · rw [if_pos leaves] at current
    have least : ∀ n, Runnable s n → NotLater s.vrunTime x n := by
      rintro n ⟨-, ⟨rfl, running⟩ | inside⟩
      · exact leaves_running leaves running
      · exact head_least h inside
    constructor
    · intro _
      exact ⟨fun _ running _ _ => ⟨x, queued, leaves_running leaves running⟩, alone⟩
    · intro _
      refine Or.inl ⟨current ▸ ⟨work, Or.inr queued⟩, fun n runnable => ?_⟩
      rw [current]
      exact least n runnable
  · rw [if_neg leaves] at current
    obtain ⟨running, before⟩ := stays_running leaves
    have first : ∀ n, InQueue s n → (s.vrunTime s.current).toInt < (s.vrunTime n).toInt :=
      fun n inside => Int.lt_of_lt_of_le before (head_least h inside)
    constructor
    · intro picks
      rcases picks with ⟨runnable, -⟩ | ⟨-, nobody⟩
      · exact ⟨fun at_idle => absurd (current.trans at_idle) runnable.1, alone⟩
      · exact absurd ⟨work, Or.inr queued⟩ (nobody x)
    · intro last
      have away : s.current ≠ s.initTask := by
        intro at_idle
        obtain ⟨m, inside, sooner⟩ := last.idle at_idle running x queued
        exact absurd sooner (Int.not_le.mpr (first m inside))
      refine Or.inl ⟨current ▸ ⟨away, Or.inl ⟨rfl, running⟩⟩, ?_⟩
      rintro n ⟨-, ⟨rfl, -⟩ | inside⟩
      · rw [current]
        exact Int.le_refl _
      · rw [current]
        exact Int.le_of_lt (first n inside)

theorem picks_least_iff {s t : Schedule} {xs : List Nat} {fuel : Nat} (h : Balanced s xs)
    (returned : schedule fuel s = some t) : PicksLeast s t ↔ IdleLast s := by
  have current := schedule_current h returned
  cases xs with
  | nil => exact alone_least_iff h current
  | cons x rest => exact queued_least_iff h current

def Picking (s : Schedule) : Event → Schedule → Prop
  | .schedule, t => PicksLeast s t
  | _, _ => True

def IdleHeld (s : Schedule) : Event → Prop
  | .schedule => IdleLast s
  | _ => True

/-- In every run, every call of schedule picks the least runnable task exactly as long as every
call finds the vrun_time of the idle task out of the way. -/
theorem schedule_least_iff (s₀ s : Schedule) (es : List Event) (boot : Booting s₀) :
    Steps (Meeting Picking (Guarded Admissible Step)) (scheduleInit s₀) es s ↔
      Steps (Guarded IdleHeld (Guarded Admissible Step)) (scheduleInit s₀) es s := by
  have balanced : ∃ xs, Balanced (scheduleInit s₀) xs := ⟨[], schedule_init_balanced boot⟩
  refine @steps_meeting_iff _ _ _ (fun s => ∃ xs, Balanced s xs) Picking IdleHeld ?_ ?_ _ _ _
    balanced
  · intro s e t known step
    obtain ⟨xs, h⟩ := known
    cases step.1 with
    | schedule _ fuel returned => exact picks_least_iff h returned
    | tick => exact Iff.rfl
    | wakeup => exact Iff.rfl
    | block => exact Iff.rfl
  · exact fun s e t known step _ => step_balanced s e t known step

theorem reached_balanced {s₀ s : Schedule} {es : List Event} (boot : Booting s₀)
    (run : Steps (Guarded Admissible Step) (scheduleInit s₀) es s) : ∃ xs, Balanced s xs :=
  @invariant_of_step _ _ _ (fun s => ∃ xs, Balanced s xs) step_balanced _ _ _ run
    ⟨[], schedule_init_balanced boot⟩

theorem made_reached :
    Steps (Guarded Admissible Step) (scheduleInit bootTask) [.wakeup 2] made := by
  have asleep : ¬ InQueue (scheduleInit bootTask) 2 :=
    balanced_asleep ⟨[], schedule_init_balanced boot_task_booting⟩ (by decide)
  exact steps_single ⟨.wakeup _ made 2 1 rfl, by decide, by decide, asleep⟩

theorem switched_reached : Steps (Guarded Admissible Step) (scheduleInit bootTask)
    [.wakeup 2, .tick, .schedule] switched :=
  steps_append made_reached
    (.cons ⟨.tick made, trivial⟩ (.cons ⟨.schedule _ switched 1 rfl, trivial⟩ (.nil _)))

theorem switched_least : Steps (Meeting Picking (Guarded Admissible Step)) (scheduleInit bootTask)
    [.wakeup 2, .tick, .schedule] switched := by
  obtain ⟨xs, h⟩ := reached_balanced boot_task_booting made_reached
  have queued : InQueue (tick made) 2 :=
    (queued_iff (tick_balanced h) 2).mpr
      (((tick_balanced h).members 2).mpr ⟨by decide, by decide, by decide, rfl⟩)
  have last : IdleLast (tick made) :=
    ⟨fun _ _ _ _ => ⟨2, queued, by decide⟩, fun work => absurd rfl work⟩
  have asleep : ¬ InQueue (scheduleInit bootTask) 2 :=
    balanced_asleep ⟨[], schedule_init_balanced boot_task_booting⟩ (by decide)
  refine (schedule_least_iff bootTask switched _ boot_task_booting).mpr ?_
  exact .cons ⟨⟨.wakeup _ made 2 1 rfl, by decide, by decide, asleep⟩, trivial⟩
    (.cons ⟨⟨.tick made, trivial⟩, trivial⟩
      (.cons ⟨⟨.schedule _ switched 1 rfl, trivial⟩, last⟩ (.nil _)))

/- Task 2 reaches the vrun_time that the idle task was left with: the idle task runs, and the
only runnable task waits. -/
theorem idle_preferred : ∃ s t, Steps (Guarded Admissible Step) (scheduleInit bootTask)
    [.wakeup 2, .tick, .schedule, .tick] s ∧ Step s .schedule t ∧ t.current = t.initTask ∧
    ¬ PicksLeast s t := by
  have run := steps_append switched_reached (steps_single ⟨.tick switched, trivial⟩)
  refine ⟨tick switched, (schedule 1 (tick switched)).getD bootTask, run,
    .schedule _ _ 1 rfl, rfl, ?_⟩
  rintro (⟨runnable, -⟩ | ⟨-, nobody⟩)
  · exact runnable.1 rfl
  · exact nobody 2 ⟨by decide, Or.inl ⟨rfl, rfl⟩⟩

theorem insert_task_queue_count {s t : Schedule} {tsk fuel : Nat}
    (returned : insertTaskQueue fuel s tsk = some t) :
    t.runningTaskCount = (s.runningTaskCount + if tsk = s.initTask then 0 else 1) ∧
      t.cpuExecTaskJiffies = s.cpuExecTaskJiffies := by
  unfold insertTaskQueue at returned
  by_cases idle : tsk = s.initTask
  · rw [if_pos idle] at returned
    cases returned
    rw [if_pos idle, Int.add_zero]
    exact ⟨rfl, rfl⟩
  · rw [if_neg idle] at returned
    obtain ⟨_, _, made⟩ := Option.map_eq_some_iff.mp returned
    rw [if_neg idle, ← made]
    exact ⟨rfl, rfl⟩

theorem insert_current_count {s t : Schedule} {fuel : Nat}
    (returned : insertCurrent fuel s = some t) :
    t.runningTaskCount = (s.runningTaskCount +
        if s.state s.current = taskRunning ∧ s.current ≠ s.initTask then 1 else 0) ∧
      t.cpuExecTaskJiffies = s.cpuExecTaskJiffies := by
  unfold insertCurrent at returned
  by_cases running : s.state s.current = taskRunning
  · rw [if_pos running] at returned
    obtain ⟨count, slice⟩ := insert_task_queue_count returned
    refine ⟨count.trans ?_, slice⟩
    by_cases idle : s.current = s.initTask
    · rw [if_pos idle, if_neg fun both => both.2 idle]
    · rw [if_neg idle, if_pos ⟨running, idle⟩]
  · rw [if_neg running] at returned
    cases returned
    rw [if_neg fun both => running both.1, Int.add_zero]
    exact ⟨rfl, rfl⟩

theorem share_positive {count : Int} (some : 1 ≤ count) : 0 < (4 : Int).tdiv count ↔ count ≤ 4 := by
  constructor
  · intro positive
    by_contra many
    rw [Int.tdiv_eq_zero_of_lt (by decide) (by omega)] at positive
    exact absurd positive (Int.lt_irrefl 0)
  · intro few
    have cases : count = 1 ∨ count = 2 ∨ count = 3 ∨ count = 4 := by omega
    rcases cases with rfl | rfl | rfl | rfl <;> decide

theorem set_jiffies_slice {s t : Schedule} {tsk : Nat} (returned : setJiffies s tsk = some t)
    (some : 1 ≤ s.runningTaskCount) (exhausted : s.cpuExecTaskJiffies ≤ 0) :
    0 < t.cpuExecTaskJiffies ↔ s.cpuExecTaskJiffies = 0 ∧ s.runningTaskCount ≤ 4 := by
  unfold setJiffies at returned
  by_cases spent : s.cpuExecTaskJiffies = 0
  · rw [if_neg (not_not_intro spent), if_neg (by omega)] at returned
    cases returned
    have share := share_positive some
    constructor
    · intro positive
      refine ⟨spent, share.mp ?_⟩
      dsimp only at positive
      split at positive <;> omega
    · intro both
      have positive := share.mpr both.2
      dsimp only
      split <;> omega
  · rw [if_pos spent] at returned
    cases returned
    constructor
    · intro positive
      omega
    · exact fun both => absurd both.1 spent

theorem alone_shared {s : Schedule} (h : Balanced s []) : s.runningTaskCount = 1 := by
  rw [h.queue.counted]
  rfl

theorem gives_way_iff {s : Schedule} {x : Nat} {rest : List Nat} (h : Balanced s (x :: rest)) :
    GivesWay s ↔
      Leaves s x ∧ ¬ (s.state s.current = taskRunning ∧ s.current ≠ s.initTask) := by
  constructor
  · rintro (blocked | ⟨idle, m, queued, sooner⟩)
    · exact ⟨Or.inr blocked, fun both => blocked both.1⟩
    · have first : NotLater s.vrunTime x s.current := Int.le_trans (head_least h queued) sooner
      exact ⟨Or.inl (decide_eq_true first), fun both => both.2 idle⟩
  · rintro ⟨leaves, other⟩
    by_cases running : s.state s.current = taskRunning
    · have idle : s.current = s.initTask := by
        by_contra work
        exact other ⟨running, work⟩
      have queued : InQueue s x := (queued_iff h x).mpr List.mem_cons_self
      exact Or.inr ⟨idle, x, queued, leaves_running leaves running⟩
    · exact Or.inl running

theorem taken_slice {s t : Schedule} {tsk : Nat} {rest : List Nat}
    (taken : Taken (setNeedSchedule s false) tsk t rest) :
    t.cpuExecTaskJiffies = s.cpuExecTaskJiffies := by
  rw [taken.same]
  rfl

theorem switch_shared {s : Schedule} {xs : List Nat} (h : Balanced s xs)
    (leaves : Leaves s (picked s xs)) {total : Int}
    (sum : total = (s.runningTaskCount - if xs = [] then 0 else 1) +
      if s.state s.current = taskRunning ∧ s.current ≠ s.initTask then 1 else 0) :
    1 ≤ total ∧
      (total ≤ 4 ↔ s.runningTaskCount ≤ 4 ∨ s.runningTaskCount = 5 ∧ GivesWay s) := by
  have counted := h.queue.counted
  cases xs with
  | nil =>
    have one := alone_shared h
    rw [one, if_pos rfl] at sum
    rw [one]
    split at sum <;> omega
  | cons x rest =>
    rw [List.length_cons] at counted
    rw [if_neg (List.cons_ne_nil x rest)] at sum
    rw [gives_way_iff h]
    by_cases busy : s.state s.current = taskRunning ∧ s.current ≠ s.initTask
    · rw [if_pos busy] at sum
      have keeps : ¬ (Leaves s x ∧ ¬ (s.state s.current = taskRunning ∧
          s.current ≠ s.initTask)) := fun both => both.2 busy
      rw [iff_false_intro keeps, and_false, or_false]
      omega
    · rw [if_neg busy] at sum
      have gives : Leaves s x ∧ ¬ (s.state s.current = taskRunning ∧
          s.current ≠ s.initTask) := ⟨leaves, busy⟩
      rw [iff_true_intro gives, and_true]
      omega

theorem stay_shared {s : Schedule} {xs : List Nat} (h : Balanced s xs)
    (stays : ¬ Leaves s (picked s xs)) {total : Int}
    (sum : total = (s.runningTaskCount - if xs = [] then 0 else 1) +
      if picked s xs = s.initTask then 0 else 1) :
    1 ≤ total ∧
      (total ≤ 4 ↔ s.runningTaskCount ≤ 4 ∨ s.runningTaskCount = 5 ∧ GivesWay s) := by
  have counted := h.queue.counted
  cases xs with
  | nil =>
    have one := alone_shared h
    rw [one, if_pos rfl] at sum
    rw [one]
    split at sum <;> omega
  | cons x rest =>
    have work : picked s (x :: rest) ≠ s.initTask :=
      ((h.members x).mp List.mem_cons_self).2.2.1
    have keeps : ¬ GivesWay s := fun gives => stays ((gives_way_iff h).mp gives).1
    rw [if_neg (List.cons_ne_nil x rest), if_neg work] at sum
    rw [iff_false_intro keeps, and_false, or_false]
    omega

theorem refilled_iff {s t : Schedule} {xs : List Nat} {fuel : Nat} (h : Balanced s xs)
    (returned : schedule fuel s = some t) (exhausted : s.cpuExecTaskJiffies ≤ 0) :
    0 < t.cpuExecTaskJiffies ↔ Refills s := by
  have refills : Refills s ↔ s.cpuExecTaskJiffies = 0 ∧
      (s.runningTaskCount ≤ 4 ∨ s.runningTaskCount = 5 ∧ GivesWay s) :=
    ⟨fun refills => ⟨refills.spent, refills.shared⟩, fun both => ⟨both.1, both.2⟩⟩
  obtain ⟨mid, rest, taken, count, way⟩ := schedule_cases h returned
  obtain ⟨states, currents, idles⟩ := taken_state taken
  have states : mid.state = s.state := states
  have currents : mid.current = s.current := currents
  have idles : mid.initTask = s.initTask := idles
  have slice := taken_slice taken
  rcases way with ⟨leaves, u, v, inserted, sliced, made⟩ | ⟨stays, u, inserted, sliced⟩
  · obtain ⟨total, left⟩ := insert_current_count inserted
    rw [count, states, currents, idles] at total
    obtain ⟨some, shared⟩ := switch_shared h leaves total
    have positive := set_jiffies_slice sliced some (by rw [left, slice]; exact exhausted)
    rw [left, slice, shared] at positive
    rw [refills, made]
    exact positive
  · obtain ⟨total, left⟩ := insert_task_queue_count inserted
    rw [count, idles] at total
    obtain ⟨some, shared⟩ := stay_shared h stays total
    have positive := set_jiffies_slice sliced some (by rw [left, slice]; exact exhausted)
    rw [left, slice, shared] at positive
    rw [refills]
    exact positive

def Refilled (s : Schedule) : Event → Schedule → Prop
  | .schedule, t => s.cpuExecTaskJiffies ≤ 0 → 0 < t.cpuExecTaskJiffies
  | _, _ => True

def Refillable (s : Schedule) : Event → Prop
  | .schedule => s.cpuExecTaskJiffies ≤ 0 → Refills s
  | _ => True

/-- In every run of ticks, calls of schedule, wakeups and sleeps, each call of schedule after an
exhausted slice leaves a positive one exactly as long as each finds the slice at zero and at most
four tasks to share it. -/
theorem slices_refilled_iff (s₀ s : Schedule) (es : List Event) (boot : Booting s₀) :
    Steps (Meeting Refilled (Guarded Admissible Step)) (scheduleInit s₀) es s ↔
      Steps (Guarded Refillable (Guarded Admissible Step)) (scheduleInit s₀) es s := by
  have balanced : ∃ xs, Balanced (scheduleInit s₀) xs := ⟨[], schedule_init_balanced boot⟩
  refine @steps_meeting_iff _ _ _ (fun s => ∃ xs, Balanced s xs) Refilled Refillable ?_ ?_ _ _ _
    balanced
  · intro s e t known step
    obtain ⟨xs, h⟩ := known
    cases step.1 with
    | schedule _ fuel returned =>
      constructor
      · exact fun refilled exhausted => (refilled_iff h returned exhausted).mp (refilled exhausted)
      · exact fun refills exhausted => (refilled_iff h returned exhausted).mpr (refills exhausted)
    | tick => exact Iff.rfl
    | wakeup => exact Iff.rfl
    | block => exact Iff.rfl
  · exact fun s e t known step _ => step_balanced s e t known step

/- The idle task gives way with its slice not spent yet. Task 3 is made runnable then, task 2 runs
   until its slice is spent, and schedule shares a new one between the two. -/
def awaited : Schedule := (wakeupProcess 2 switched 3).getD bootTask

def refilled : Schedule := (schedule 3 (tick awaited)).getD bootTask

theorem slices_refilled_spent : (tick awaited).cpuExecTaskJiffies = 0 ∧
    0 < refilled.cpuExecTaskJiffies ∧ Steps (Meeting Refilled (Guarded Admissible Step))
    (scheduleInit bootTask) [.wakeup 2, .tick, .schedule, .wakeup 3, .tick, .schedule]
    refilled := by
  have asleep : ¬ InQueue (scheduleInit bootTask) 2 :=
    balanced_asleep ⟨[], schedule_init_balanced boot_task_booting⟩ (by decide)
  have third : ¬ InQueue switched 3 :=
    balanced_asleep (reached_balanced boot_task_booting switched_reached) (by decide)
  have spent : Refills (tick awaited) := ⟨rfl, Or.inl (by decide)⟩
  refine ⟨rfl, by decide, (slices_refilled_iff bootTask refilled _ boot_task_booting).mpr ?_⟩
  exact .cons ⟨⟨.wakeup _ made 2 1 rfl, by decide, by decide, asleep⟩, trivial⟩
    (.cons ⟨⟨.tick made, trivial⟩, trivial⟩
    (.cons ⟨⟨.schedule _ switched 1 rfl, trivial⟩, fun none => absurd none (by decide)⟩
    (.cons ⟨⟨.wakeup _ awaited 3 2 rfl, by decide, by decide, third⟩, trivial⟩
    (.cons ⟨⟨.tick awaited, trivial⟩, trivial⟩
    (.cons ⟨⟨.schedule _ refilled 3 rfl, trivial⟩, fun _ => spent⟩ (.nil _))))))

def crowded : Schedule :=
  (wakeupProcess 3 ((wakeupProcess 3 made 3).getD bootTask) 4).getD bootTask

theorem crowded_reached : Steps (Guarded Admissible Step) (scheduleInit bootTask)
    [.wakeup 2, .wakeup 3, .wakeup 4] crowded := by
  have third : ¬ InQueue made 3 :=
    balanced_asleep (reached_balanced boot_task_booting made_reached) (by decide)
  have two := steps_append made_reached
    (steps_single ⟨.wakeup made _ 3 3 rfl, by decide, by decide, third⟩)
  have fourth : ¬ InQueue ((wakeupProcess 3 made 3).getD bootTask) 4 :=
    balanced_asleep (reached_balanced boot_task_booting two) (by decide)
  exact steps_append two (steps_single ⟨.wakeup _ crowded 4 3 rfl, by decide, by decide, fourth⟩)

def served : Schedule := (schedule 3 (tick (tick crowded))).getD bootTask

/- Shared by three the slice is 3, and two jiffies a tick pass over zero. -/
theorem slice_passes_zero : ∃ s t, Steps (Guarded Admissible Step) (scheduleInit bootTask)
    [.wakeup 2, .wakeup 3, .wakeup 4, .tick, .tick, .schedule, .tick, .tick] s ∧
    Step s .schedule t ∧ s.cpuExecTaskJiffies ≤ 0 ∧ ¬ 0 < t.cpuExecTaskJiffies := by
  have run := steps_append crowded_reached
    (.cons ⟨.tick crowded, trivial⟩ (.cons ⟨.tick _, trivial⟩
      (.cons ⟨.schedule _ served 3 rfl, trivial⟩
        (.cons ⟨.tick served, trivial⟩ (.cons ⟨.tick _, trivial⟩ (.nil _))))))
  refine ⟨tick (tick served), (schedule 3 (tick (tick served))).getD bootTask, run,
    .schedule _ _ 3 rfl, by decide, by decide⟩

end RunQueue

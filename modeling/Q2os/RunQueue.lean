import Mathlib.Data.List.Sort
import Q2os.KernelList
import Q2os.Run

/- The run queue of schedule.c on one CPU: tasks ringed around task_queue, whose own
   vrun_time is the largest long and stops every search. -/
namespace RunQueue
open CircularList KernelList Run

def taskQueue : Nat := 0

def taskRunning : Nat := 1

/- struct schedule of one CPU with the task fields it works on. initTask is the idle task
   init_task[i]; a task that does not exist is one that is not running. -/
structure Schedule where
  links : Links Nat
  state : Nat → Nat
  needSchedule : Nat → Bool
  priority : Nat → Int
  vrunTime : Nat → BitVec 64
  runningTaskCount : Int
  cpuExecTaskJiffies : Int
  current : Nat
  initTask : Nat

def scheduleInit (s : Schedule) : Schedule :=
  { s with
    links := listInit s.links taskQueue
    vrunTime := Function.update s.vrunTime taskQueue 0x7fffffffffffffff
    runningTaskCount := 1
    cpuExecTaskJiffies := 4 }

def getNextTask (s : Schedule) : Nat × Schedule :=
  if listIsEmpty s.links taskQueue then (s.initTask, s)
  else
    let tsk := s.links.next taskQueue
    (tsk, { s with
      links := listDel s.links tsk, runningTaskCount := s.runningTaskCount - 1 })

/- none when the search does not end within the fuel. -/
def insertTaskQueue (fuel : Nat) (s : Schedule) (tsk : Nat) : Option Schedule :=
  if tsk = s.initTask then some s
  else
    let tmp := s.links.next taskQueue
    let place := if listIsEmpty s.links taskQueue then some tmp
      else walkWhile s.links.next (fun tmp => (s.vrunTime tmp).slt (s.vrunTime tsk)) fuel tmp
    place.map fun tmp =>
      { s with
        links := listAddToBefore s.links tmp tsk, runningTaskCount := s.runningTaskCount + 1 }

def setJiffies (s : Schedule) (tsk : Nat) : Option Schedule :=
  if s.cpuExecTaskJiffies ≠ 0 then some s
  else if s.runningTaskCount = 0 then none
  else
    let share := (4 : Int).tdiv s.runningTaskCount
    some { s with cpuExecTaskJiffies :=
      if s.priority tsk = 0 ∨ s.priority tsk = 1 then share else share * 3 }

def insertCurrent (fuel : Nat) (s : Schedule) : Option Schedule :=
  if s.state s.current = taskRunning then insertTaskQueue fuel s s.current else some s

def setNeedSchedule (s : Schedule) (need : Bool) : Schedule :=
  { s with needSchedule := Function.update s.needSchedule s.current need }

/- switch_mm and switch_to end in the task tsk. -/
def schedule (fuel : Nat) (s : Schedule) : Option Schedule :=
  let (tsk, s) := getNextTask (setNeedSchedule s false)
  if (s.vrunTime tsk).sle (s.vrunTime s.current) ∨ s.state s.current ≠ taskRunning then do
    let s ← insertCurrent fuel s
    let s ← setJiffies s tsk
    some { s with current := tsk }
  else do
    let s ← insertTaskQueue fuel s tsk
    setJiffies s tsk

def tick (s : Schedule) : Schedule :=
  let cost := if s.priority s.current = 0 ∨ s.priority s.current = 1 then 1 else 2
  let left := s.cpuExecTaskJiffies - cost
  { s with
    cpuExecTaskJiffies := left
    vrunTime := Function.update s.vrunTime s.current (s.vrunTime s.current + BitVec.ofInt 64 cost)
    needSchedule := Function.update s.needSchedule s.current
      (if left ≤ 0 then true else s.needSchedule s.current) }

def setState (s : Schedule) (tsk state : Nat) : Schedule :=
  { s with state := Function.update s.state tsk state }

def wakeupProcess (fuel : Nat) (s : Schedule) (tsk : Nat) : Option Schedule := do
  let s ← insertTaskQueue fuel (setState s tsk taskRunning) tsk
  some (setNeedSchedule s true)

/- block is a task that stores its own state before it calls schedule. -/
inductive Event where
  | schedule
  | tick
  | wakeup (tsk : Nat)
  | block (state : Nat)
deriving DecidableEq

inductive Step : Schedule → Event → Schedule → Prop where
  | schedule (s s' : Schedule) (fuel : Nat) (returned : schedule fuel s = some s') :
      Step s .schedule s'
  | tick (s : Schedule) : Step s .tick (tick s)
  | wakeup (s s' : Schedule) (tsk fuel : Nat) (returned : wakeupProcess fuel s tsk = some s') :
      Step s (.wakeup tsk) s'
  | block (s : Schedule) (state : Nat) : Step s (.block state) (setState s s.current state)

def InQueue (s : Schedule) (tsk : Nat) : Prop :=
  ∃ xs, Ring s.links taskQueue xs ∧ tsk ∈ xs

/- A wakeup is of a task that is neither current nor queued. -/
def Admissible (s : Schedule) : Event → Prop
  | .wakeup tsk => tsk ≠ taskQueue ∧ tsk ≠ s.current ∧ ¬ InQueue s tsk
  | _ => True

def Waiting (s : Schedule) (tsk : Nat) : Prop :=
  tsk ≠ taskQueue ∧ tsk ≠ s.current ∧ tsk ≠ s.initTask ∧ s.state tsk = taskRunning

def NotLater (vrunTime : Nat → BitVec 64) (a b : Nat) : Prop :=
  (vrunTime a).toInt ≤ (vrunTime b).toInt

instance (vrunTime : Nat → BitVec 64) : DecidableRel (NotLater vrunTime) :=
  fun a b => inferInstanceAs (Decidable ((vrunTime a).toInt ≤ (vrunTime b).toInt))

instance (vrunTime : Nat → BitVec 64) : Std.Total (NotLater vrunTime) :=
  ⟨fun _ _ => Int.le_total _ _⟩

instance (vrunTime : Nat → BitVec 64) : IsTrans Nat (NotLater vrunTime) :=
  ⟨fun _ _ _ => Int.le_trans⟩

/- The queue in the order its links give, sorted, with the count of the tasks in it and
   the one beside it, and the sentinel's value. -/
structure Queue (s : Schedule) (xs : List Nat) : Prop where
  ring : Ring s.links taskQueue xs
  sorted : xs.Pairwise (NotLater s.vrunTime)
  counted : s.runningTaskCount = xs.length + 1
  sentinel : s.vrunTime taskQueue = 0x7fffffffffffffff

/- The queue holds exactly the tasks that wait for the processor. -/
structure Balanced (s : Schedule) (xs : List Nat) : Prop where
  queue : Queue s xs
  members : ∀ n, n ∈ xs ↔ Waiting s n
  current : s.current ≠ taskQueue
  idle : s.initTask ≠ taskQueue

theorem inQueue_iff {s : Schedule} {xs : List Nat} (ring : Ring s.links taskQueue xs)
    (tsk : Nat) : InQueue s tsk ↔ tsk ∈ xs := by
  constructor
  · intro inside
    obtain ⟨ys, other, member⟩ := inside
    rwa [ring_unique ring other]
  · exact fun member => ⟨xs, ring, member⟩

theorem sentinel_last (v : BitVec 64) : BitVec.slt 0x7fffffffffffffff v = false := by
  have bound := BitVec.toInt_lt (x := v)
  have top : (0x7fffffffffffffff : BitVec 64).toInt = 2 ^ 63 - 1 := by decide
  simp only [BitVec.slt, top, decide_eq_false_iff_not]
  omega

theorem slt_eq_not_later (vrunTime : Nat → BitVec 64) (tsk : Nat) :
    (fun n => (vrunTime n).slt (vrunTime tsk)) =
      fun n => decide (¬ NotLater vrunTime tsk n) := by
  funext n
  simp only [BitVec.slt, NotLater, Int.not_le]

theorem place_eq {s : Schedule} {xs : List Nat} (h : Queue s xs) (tsk fuel : Nat) :
    (if listIsEmpty s.links taskQueue then some (s.links.next taskQueue)
      else walkWhile s.links.next (fun n => (s.vrunTime n).slt (s.vrunTime tsk)) fuel
        (s.links.next taskQueue)) =
    if xs = [] ∨ (xs.takeWhile fun n => ¬ NotLater s.vrunTime tsk n).length < fuel then
      some (firstNode (xs.dropWhile fun n => ¬ NotLater s.vrunTime tsk n) taskQueue)
    else none := by
  cases xs with
  | nil =>
    have flag := (list_is_empty_iff h.ring).mpr rfl
    have itself : s.links.next taskQueue = taskQueue := h.ring.forward
    simp [flag, firstNode, itself]
  | cons x xs =>
    have flag : listIsEmpty s.links taskQueue = false := by
      simpa using list_is_empty_iff h.ring
    have stop : (s.vrunTime taskQueue).slt (s.vrunTime tsk) = false := by
      rw [h.sentinel]
      exact sentinel_last _
    have walked := walk_while_ring (p := fun n => (s.vrunTime n).slt (s.vrunTime tsk))
      h.ring.forward stop fuel
    rw [slt_eq_not_later] at walked
    simp only [flag, slt_eq_not_later, walked, Bool.false_eq_true, reduceCtorEq, false_or,
      ↓reduceIte]

theorem place_ring {s : Schedule} {tsk : Nat} {xs : List Nat}
    (ring : Ring s.links taskQueue xs) (fresh : tsk ∉ taskQueue :: xs) :
    Ring (listAddToBefore s.links
        (firstNode (xs.dropWhile fun n => ¬ NotLater s.vrunTime tsk n) taskQueue) tsk)
      taskQueue (xs.orderedInsert (NotLater s.vrunTime) tsk) := by
  have whole := List.takeWhile_append_dropWhile
    (p := fun n => decide (¬ NotLater s.vrunTime tsk n)) (l := xs)
  rw [← whole] at ring fresh
  rw [List.orderedInsert_eq_take_drop]
  exact list_add_to_before_ring ring fresh

/- insert_task_queue puts a task that is not queued where its vrun_time belongs. -/
theorem insert_task_queue_eq {s : Schedule} {xs : List Nat} (h : Queue s xs) {tsk : Nat}
    (work : tsk ≠ s.initTask) (fuel : Nat) :
    insertTaskQueue fuel s tsk =
      if xs = [] ∨ (xs.takeWhile fun n => ¬ NotLater s.vrunTime tsk n).length < fuel then
        some { s with
          links := listAddToBefore s.links
            (firstNode (xs.dropWhile fun n => ¬ NotLater s.vrunTime tsk n) taskQueue) tsk
          runningTaskCount := s.runningTaskCount + 1 }
      else none := by
  simp only [insertTaskQueue, work, ↓reduceIte, place_eq h tsk fuel]
  split <;> rfl

theorem insert_task_queue_queue {s s' : Schedule} {xs : List Nat} (h : Queue s xs)
    {tsk fuel : Nat} (fresh : tsk ∉ taskQueue :: xs) (work : tsk ≠ s.initTask)
    (returned : insertTaskQueue fuel s tsk = some s') :
    Queue s' (xs.orderedInsert (NotLater s.vrunTime) tsk) ∧
      s' = { s with links := s'.links, runningTaskCount := s.runningTaskCount + 1 } := by
  rw [insert_task_queue_eq h work, Option.ite_none_right_eq_some] at returned
  obtain ⟨_, made⟩ := returned
  cases made
  constructor
  · constructor
    · exact place_ring h.ring fresh
    · exact h.sorted.orderedInsert tsk xs
    · simp [List.orderedInsert_length, h.counted]
    · exact h.sentinel
  · rfl

theorem insert_task_queue_returns {s : Schedule} {xs : List Nat} (h : Queue s xs)
    (tsk : Nat) {fuel : Nat} (enough : xs.length < fuel) :
    ∃ s', insertTaskQueue fuel s tsk = some s' := by
  by_cases work : tsk = s.initTask
  · exact ⟨s, by simp [insertTaskQueue, work]⟩
  · have short := (List.takeWhile_sublist
      (p := fun n => decide (¬ NotLater s.vrunTime tsk n)) (l := xs)).length_le
    rw [insert_task_queue_eq h work, if_pos (Or.inr (Nat.lt_of_le_of_lt short enough))]
    exact ⟨_, rfl⟩

/- The idle task is not inserted; any other task joins the members. -/
theorem insert_task_queue_members {s s' : Schedule} {xs : List Nat} (h : Queue s xs)
    {tsk fuel : Nat} (fresh : tsk ≠ s.initTask → tsk ∉ taskQueue :: xs)
    (returned : insertTaskQueue fuel s tsk = some s') :
    ∃ ys, Queue s' ys ∧
      s' = { s with links := s'.links, runningTaskCount := s'.runningTaskCount } ∧
      ∀ n, n ∈ ys ↔ n ∈ xs ∨ (n = tsk ∧ tsk ≠ s.initTask) := by
  by_cases work : tsk = s.initTask
  · simp only [insertTaskQueue, work, ↓reduceIte, Option.some.injEq] at returned
    subst returned
    exact ⟨xs, h, rfl, fun n => by simp [work]⟩
  · obtain ⟨queue, same⟩ := insert_task_queue_queue h (fresh work) work returned
    refine ⟨_, queue, ?_, ?_⟩
    · rw [same]
    · intro n
      rw [List.mem_orderedInsert]
      constructor
      · intro member
        exact member.symm.imp_right fun at_tsk => ⟨at_tsk, work⟩
      · intro member
        exact member.symm.imp_left fun at_tsk => at_tsk.1

structure Taken (s : Schedule) (tsk : Nat) (s' : Schedule) (rest : List Nat) : Prop where
  queue : Queue s' rest
  same : s' = { s with links := s'.links, runningTaskCount := s'.runningTaskCount }
  members : ∀ n, n ∈ rest ↔ Waiting s n ∧ n ≠ tsk
  waited : tsk = s.initTask ∨ Waiting s tsk

theorem get_next_task_taken {s : Schedule} {xs : List Nat} (h : Balanced s xs) :
    ∃ rest, Taken s (getNextTask s).1 (getNextTask s).2 rest ∧ rest.length ≤ xs.length := by
  cases xs with
  | nil =>
    have flag := (list_is_empty_iff h.queue.ring).mpr rfl
    have next : getNextTask s = (s.initTask, s) := by simp [getNextTask, flag]
    rw [next]
    refine ⟨[], ⟨h.queue, rfl, ?_, Or.inl rfl⟩, Nat.le_refl 0⟩
    intro n
    have none_waits := h.members n
    simp only [List.not_mem_nil, false_iff] at none_waits ⊢
    exact fun both => none_waits both.1
  | cons x rest =>
    have flag : listIsEmpty s.links taskQueue = false := by
      simpa using list_is_empty_iff h.queue.ring
    have first : s.links.next taskQueue = x := h.queue.ring.forward.1
    have next : getNextTask s = (x, { s with
        links := listDel s.links x, runningTaskCount := s.runningTaskCount - 1 }) := by
      simp [getNextTask, flag, first]
    rw [next]
    refine ⟨rest, ⟨⟨list_del_head_ring h.queue.ring, ?_, ?_, h.queue.sentinel⟩, rfl, ?_, ?_⟩,
      Nat.le_succ _⟩
    · exact (List.pairwise_cons.mp h.queue.sorted).2
    · have counted := h.queue.counted
      simp only [List.length_cons] at counted ⊢
      omega
    · intro n
      have nodup := (List.nodup_cons.mp h.queue.ring.nodup).2
      have absent := (List.nodup_cons.mp nodup).1
      rw [← h.members n, List.mem_cons]
      constructor
      · intro member
        refine ⟨Or.inr member, ?_⟩
        intro same
        exact absent (by rwa [same] at member)
      · exact fun both => both.1.resolve_left both.2
    · exact Or.inr ((h.members x).mp List.mem_cons_self)

theorem set_jiffies_eq {s : Schedule} {xs : List Nat} (h : Queue s xs) (tsk : Nat) :
    ∃ left, setJiffies s tsk = some { s with cpuExecTaskJiffies := left } := by
  have nonzero : s.runningTaskCount ≠ 0 := by
    have counted := h.counted
    omega
  by_cases spent : s.cpuExecTaskJiffies ≠ 0
  · exact ⟨s.cpuExecTaskJiffies, by rw [setJiffies, if_pos spent]⟩
  · rw [setJiffies, if_neg spent, if_neg nonzero]
    exact ⟨_, rfl⟩

theorem queue_congr {s t : Schedule} {xs : List Nat} (h : Queue s xs) (links : t.links = s.links)
    (vrunTime : t.vrunTime = s.vrunTime) (count : t.runningTaskCount = s.runningTaskCount) :
    Queue t xs :=
  ⟨links ▸ h.ring, vrunTime ▸ h.sorted, count.trans h.counted, vrunTime ▸ h.sentinel⟩

theorem balanced_need {s : Schedule} {xs : List Nat} (h : Balanced s xs)
    (need : Bool) : Balanced (setNeedSchedule s need) xs :=
  ⟨queue_congr h.queue rfl rfl rfl, h.members, h.current, h.idle⟩

theorem taken_state {s s' : Schedule} {tsk : Nat} {rest : List Nat} (h : Taken s tsk s' rest) :
    s'.state = s.state ∧ s'.current = s.current ∧ s'.initTask = s.initTask := by
  rw [h.same]
  exact ⟨rfl, rfl, rfl⟩

/- The branch that switches: the current task goes back if it can still run, and the task
   taken becomes current. -/
theorem switch_balanced {s t u : Schedule} {xs rest : List Nat} {tsk fuel : Nat} (left : Int)
    (h : Balanced s xs) (taken : Taken s tsk t rest)
    (returned : insertCurrent fuel t = some u) :
    ∃ ys, Balanced { u with cpuExecTaskJiffies := left, current := tsk } ys := by
  obtain ⟨states, currents, idles⟩ := taken_state taken
  have reachable : tsk ≠ taskQueue := by
    rcases taken.waited with at_idle | waits
    · exact at_idle ▸ h.idle
    · exact waits.1
  by_cases running : t.state t.current = taskRunning
  · rw [insertCurrent, if_pos running] at returned
    have fresh : t.current ≠ t.initTask → t.current ∉ taskQueue :: rest := by
      intro _ member
      rcases List.mem_cons.mp member with at_head | inside
      · exact h.current (currents ▸ at_head)
      · exact ((taken.members _).mp inside).1.2.1 currents
    obtain ⟨ys, queue, same, members⟩ :=
      insert_task_queue_members taken.queue fresh returned
    refine ⟨ys, queue_congr queue rfl rfl rfl, ?_, reachable, ?_⟩
    · intro n
      rw [members n, taken.members n, same]
      simp only [Waiting, states, currents, idles] at running ⊢
      constructor
      · intro either
        rcases either with ⟨waits, other⟩ | ⟨at_current, work⟩
        · exact ⟨waits.1, other, waits.2.2⟩
        · subst at_current
          refine ⟨h.current, ?_, work, running⟩
          intro at_tsk
          rcases taken.waited with at_idle | waits
          · exact work (at_tsk.trans at_idle)
          · exact waits.2.1 at_tsk.symm
      · intro waits
        by_cases at_current : n = s.current
        · exact Or.inr ⟨at_current, at_current ▸ waits.2.2.1⟩
        · exact Or.inl ⟨⟨waits.1, at_current, waits.2.2⟩, waits.2.1⟩
    · rw [same]
      exact idles ▸ h.idle
  · rw [insertCurrent, if_neg running, Option.some.injEq] at returned
    subst returned
    refine ⟨rest, queue_congr taken.queue rfl rfl rfl, ?_, reachable, ?_⟩
    · intro n
      rw [taken.members n]
      simp only [Waiting, states, currents, idles] at running ⊢
      constructor
      · exact fun waits => ⟨waits.1.1, waits.2, waits.1.2.2⟩
      · intro waits
        refine ⟨⟨waits.1, ?_, waits.2.2⟩, waits.2.1⟩
        intro at_current
        exact running (at_current ▸ waits.2.2.2)
    · exact idles ▸ h.idle

/- The branch that stays: the task taken goes back. -/
theorem stay_balanced {s t u : Schedule} {xs rest : List Nat} {tsk fuel : Nat} (left : Int)
    (h : Balanced s xs) (taken : Taken s tsk t rest)
    (returned : insertTaskQueue fuel t tsk = some u) :
    ∃ ys, Balanced { u with cpuExecTaskJiffies := left } ys := by
  obtain ⟨states, currents, idles⟩ := taken_state taken
  have fresh : tsk ≠ t.initTask → tsk ∉ taskQueue :: rest := by
    intro work member
    rcases List.mem_cons.mp member with at_head | inside
    · rcases taken.waited with at_idle | waits
      · exact work (at_idle.trans idles.symm)
      · exact waits.1 at_head
    · exact ((taken.members _).mp inside).2 rfl
  obtain ⟨ys, queue, same, members⟩ := insert_task_queue_members taken.queue fresh returned
  refine ⟨ys, queue_congr queue rfl rfl rfl, ?_, ?_, ?_⟩
  · intro n
    rw [members n, taken.members n, same]
    simp only [Waiting, states, currents, idles]
    constructor
    · intro either
      rcases either with ⟨waits, _⟩ | ⟨at_tsk, work⟩
      · exact waits
      · subst at_tsk
        exact taken.waited.resolve_left work
    · intro waits
      by_cases at_tsk : n = tsk
      · exact Or.inr ⟨at_tsk, at_tsk ▸ waits.2.2.1⟩
      · exact Or.inl ⟨waits, at_tsk⟩
  · rw [same]
    exact currents ▸ h.current
  · rw [same]
    exact idles ▸ h.idle

theorem switch_queue {s t u : Schedule} {xs rest : List Nat} {tsk fuel : Nat}
    (h : Balanced s xs) (taken : Taken s tsk t rest) (returned : insertCurrent fuel t = some u) :
    ∃ ys, Queue u ys := by
  obtain ⟨ys, whole⟩ := switch_balanced 0 h taken returned
  exact ⟨ys, queue_congr whole.queue rfl rfl rfl⟩

theorem stay_queue {s t u : Schedule} {xs rest : List Nat} {tsk fuel : Nat}
    (h : Balanced s xs) (taken : Taken s tsk t rest)
    (returned : insertTaskQueue fuel t tsk = some u) : ∃ ys, Queue u ys := by
  obtain ⟨ys, whole⟩ := stay_balanced 0 h taken returned
  exact ⟨ys, queue_congr whole.queue rfl rfl rfl⟩

/- schedule keeps the queue balanced. -/
theorem schedule_balanced {s s' : Schedule} {xs : List Nat} {fuel : Nat} (h : Balanced s xs)
    (returned : schedule fuel s = some s') : ∃ ys, Balanced s' ys := by
  have calm := balanced_need h false
  obtain ⟨rest, taken, _⟩ := get_next_task_taken calm
  simp only [schedule] at returned
  split at returned
  · obtain ⟨u, inserted, after⟩ := Option.bind_eq_some_iff.mp returned
    obtain ⟨v, sliced, made⟩ := Option.bind_eq_some_iff.mp after
    obtain ⟨ys, queue⟩ := switch_queue calm taken inserted
    obtain ⟨left, slice⟩ := set_jiffies_eq queue (getNextTask (setNeedSchedule s false)).1
    rw [← Option.some.inj (slice.symm.trans sliced)] at made
    rw [← Option.some.inj made]
    have kept := switch_balanced left calm taken inserted
    exact kept
  · obtain ⟨u, inserted, sliced⟩ := Option.bind_eq_some_iff.mp returned
    obtain ⟨ys, queue⟩ := stay_queue calm taken inserted
    obtain ⟨left, slice⟩ := set_jiffies_eq queue (getNextTask (setNeedSchedule s false)).1
    rw [← Option.some.inj (slice.symm.trans sliced)]
    exact stay_balanced left calm taken inserted

theorem insert_current_returns {s : Schedule} {xs : List Nat} (h : Queue s xs) {fuel : Nat}
    (enough : xs.length < fuel) : ∃ s', insertCurrent fuel s = some s' := by
  unfold insertCurrent
  split
  · exact insert_task_queue_returns h s.current enough
  · exact ⟨s, rfl⟩

/- schedule divides by no zero and its search ends. -/
theorem schedule_returns {s : Schedule} {xs : List Nat} {fuel : Nat} (h : Balanced s xs)
    (enough : xs.length < fuel) : ∃ s', schedule fuel s = some s' := by
  have calm := balanced_need h false
  obtain ⟨rest, taken, short⟩ := get_next_task_taken calm
  have room := Nat.lt_of_le_of_lt short enough
  simp only [schedule]
  split
  · obtain ⟨u, inserted⟩ := insert_current_returns taken.queue room
    obtain ⟨ys, queue⟩ := switch_queue calm taken inserted
    obtain ⟨left, slice⟩ := set_jiffies_eq queue (getNextTask (setNeedSchedule s false)).1
    exact ⟨_, Option.bind_eq_some_iff.mpr ⟨u, inserted,
      Option.bind_eq_some_iff.mpr ⟨_, slice, rfl⟩⟩⟩
  · obtain ⟨u, inserted⟩ :=
      insert_task_queue_returns taken.queue (getNextTask (setNeedSchedule s false)).1 room
    obtain ⟨ys, queue⟩ := stay_queue calm taken inserted
    obtain ⟨left, slice⟩ := set_jiffies_eq queue (getNextTask (setNeedSchedule s false)).1
    exact ⟨_, Option.bind_eq_some_iff.mpr ⟨u, inserted, slice⟩⟩

theorem waiting_running (s : Schedule) {tsk : Nat} (not_head : tsk ≠ taskQueue)
    (not_current : tsk ≠ s.current) (n : Nat) :
    Waiting (setState s tsk taskRunning) n ↔ Waiting s n ∨ (n = tsk ∧ tsk ≠ s.initTask) := by
  by_cases at_tsk : n = tsk
  · subst at_tsk
    simp only [Waiting, setState, Function.update_self, true_and]
    tauto
  · simp [Waiting, setState, at_tsk]

theorem wakeup_balanced {s s' : Schedule} {xs : List Nat} {tsk fuel : Nat} (h : Balanced s xs)
    (allowed : Admissible s (.wakeup tsk)) (returned : wakeupProcess fuel s tsk = some s') :
    ∃ ys, Balanced s' ys := by
  obtain ⟨not_head, not_current, outside⟩ := allowed
  have absent : tsk ∉ xs := fun member => outside ((inQueue_iff h.queue.ring tsk).mpr member)
  obtain ⟨u, inserted, made⟩ := Option.bind_eq_some_iff.mp returned
  have queue : Queue (setState s tsk taskRunning) xs := queue_congr h.queue rfl rfl rfl
  obtain ⟨ys, queue, same, members⟩ := insert_task_queue_members queue
    (fun _ => by simp [not_head, absent]) inserted
  rw [← Option.some.inj made]
  refine ⟨ys, queue_congr queue rfl rfl rfl, ?_, ?_, ?_⟩
  · intro n
    have after : Waiting (setNeedSchedule u true) n ↔ Waiting (setState s tsk taskRunning) n := by
      rw [same]
      rfl
    rw [after, waiting_running s not_head not_current, members n, h.members n]
    rfl
  · rw [same]
    exact h.current
  · rw [same]
    exact h.idle

theorem tick_balanced {s : Schedule} {xs : List Nat} (h : Balanced s xs) :
    Balanced (tick s) xs := by
  have kept : ∀ n, n ≠ s.current → (tick s).vrunTime n = s.vrunTime n :=
    fun n other => Function.update_of_ne other _ _
  have behind : ∀ n ∈ xs, n ≠ s.current := fun n member => ((h.members n).mp member).2.1
  refine ⟨⟨h.queue.ring, ?_, h.queue.counted, ?_⟩, h.members, h.current, h.idle⟩
  · apply List.Pairwise.imp_of_mem _ h.queue.sorted
    intro a b ha hb order
    simpa only [NotLater, kept a (behind a ha), kept b (behind b hb)] using order
  · rw [kept taskQueue (Ne.symm h.current)]
    exact h.queue.sentinel

theorem block_balanced {s : Schedule} {xs : List Nat} (h : Balanced s xs) (state : Nat) :
    Balanced (setState s s.current state) xs := by
  refine ⟨queue_congr h.queue rfl rfl rfl, ?_, h.current, h.idle⟩
  intro n
  rw [h.members n]
  by_cases at_current : n = s.current
  · simp [Waiting, setState, at_current]
  · simp [Waiting, setState, at_current]

theorem step_balanced (s : Schedule) (e : Event) (s' : Schedule)
    (h : ∃ xs, Balanced s xs) (step : Guarded Admissible Step s e s') :
    ∃ ys, Balanced s' ys := by
  obtain ⟨xs, balanced⟩ := h
  obtain ⟨step, allowed⟩ := step
  cases step with
  | schedule _ fuel returned => exact schedule_balanced balanced returned
  | tick => exact ⟨xs, tick_balanced balanced⟩
  | wakeup _ tsk fuel returned => exact wakeup_balanced balanced allowed returned
  | block state => exact ⟨xs, block_balanced balanced state⟩

/- Before the first task is made there is the task that boots and the idle task. -/
structure Booting (s : Schedule) : Prop where
  alone : ∀ n, n ≠ taskQueue → s.state n = taskRunning → n = s.current ∨ n = s.initTask
  current : s.current ≠ taskQueue
  idle : s.initTask ≠ taskQueue

theorem schedule_init_balanced {s : Schedule} (boot : Booting s) :
    Balanced (scheduleInit s) [] := by
  refine ⟨⟨list_init_ring _ _, List.Pairwise.nil, rfl, by simp [scheduleInit]⟩, ?_,
    boot.current, boot.idle⟩
  intro n
  simp only [List.not_mem_nil, false_iff]
  intro waits
  rcases boot.alone n waits.1 waits.2.2.2 with at_current | at_idle
  · exact waits.2.1 at_current
  · exact waits.2.2.1 at_idle

theorem insert_task_queue_frame {s s' : Schedule} {tsk fuel : Nat}
    (returned : insertTaskQueue fuel s tsk = some s') :
    s'.state = s.state ∧ s'.current = s.current ∧ s'.initTask = s.initTask := by
  unfold insertTaskQueue at returned
  split at returned
  · rw [← Option.some.inj returned]
    exact ⟨rfl, rfl, rfl⟩
  · obtain ⟨_, _, made⟩ := Option.map_eq_some_iff.mp returned
    rw [← made]
    exact ⟨rfl, rfl, rfl⟩

theorem set_jiffies_frame {s s' : Schedule} {tsk : Nat} (returned : setJiffies s tsk = some s') :
    s'.state = s.state ∧ s'.current = s.current ∧ s'.initTask = s.initTask := by
  unfold setJiffies at returned
  split at returned
  · rw [← Option.some.inj returned]
    exact ⟨rfl, rfl, rfl⟩
  · split at returned
    · cases returned
    · rw [← Option.some.inj returned]
      exact ⟨rfl, rfl, rfl⟩

theorem schedule_picks {s s' : Schedule} {xs : List Nat} {fuel : Nat} (h : Balanced s xs)
    (returned : schedule fuel s = some s') :
    s'.state = s.state ∧ s'.initTask = s.initTask ∧
      (s'.current = s.initTask ∨ s.state s'.current = taskRunning) := by
  obtain ⟨rest, taken, _⟩ := get_next_task_taken (balanced_need h false)
  obtain ⟨states, currents, idles⟩ := taken_state taken
  simp only [schedule] at returned
  split at returned
  · obtain ⟨u, inserted, after⟩ := Option.bind_eq_some_iff.mp returned
    obtain ⟨v, sliced, made⟩ := Option.bind_eq_some_iff.mp after
    have kept : u.state = s.state ∧ u.initTask = s.initTask := by
      unfold insertCurrent at inserted
      split at inserted
      · obtain ⟨state, _, idle⟩ := insert_task_queue_frame inserted
        exact ⟨state.trans states, idle.trans idles⟩
      · rw [← Option.some.inj inserted]
        exact ⟨states, idles⟩
    obtain ⟨state, _, idle⟩ := set_jiffies_frame sliced
    rw [← Option.some.inj made]
    refine ⟨state.trans kept.1, idle.trans kept.2, ?_⟩
    rcases taken.waited with at_idle | waits
    · exact Or.inl at_idle
    · exact Or.inr waits.2.2.2
  · rename_i stays
    obtain ⟨u, inserted, sliced⟩ := Option.bind_eq_some_iff.mp returned
    obtain ⟨state, current, idle⟩ := insert_task_queue_frame inserted
    obtain ⟨state', current', idle'⟩ := set_jiffies_frame sliced
    have running := not_not.mp (not_or.mp stays).2
    refine ⟨state'.trans (state.trans states), idle'.trans (idle.trans idles), Or.inr ?_⟩
    rw [current', current]
    rwa [states] at running

/- A task that cannot be picked: neither running now nor runnable. -/
structure Asleep (s : Schedule) (tsk : Nat) : Prop where
  task : tsk ≠ taskQueue
  work : tsk ≠ s.initTask
  away : tsk ≠ s.current
  blocked : s.state tsk ≠ taskRunning

theorem asleep_not_queued {s : Schedule} {xs : List Nat} {tsk : Nat} (h : Balanced s xs)
    (asleep : Asleep s tsk) : tsk ∉ xs := by
  intro member
  exact asleep.blocked ((h.members tsk).mp member).2.2.2

theorem asleep_congr {s t : Schedule} {tsk : Nat} (asleep : Asleep s tsk)
    (idle : t.initTask = s.initTask) (current : t.current = s.current)
    (state : t.state tsk = s.state tsk) : Asleep t tsk :=
  ⟨asleep.task, idle ▸ asleep.work, current ▸ asleep.away, state ▸ asleep.blocked⟩

theorem schedule_asleep {s s' : Schedule} {xs : List Nat} {tsk fuel : Nat} (h : Balanced s xs)
    (returned : schedule fuel s = some s') (task : tsk ≠ taskQueue) (work : tsk ≠ s.initTask)
    (blocked : s.state tsk ≠ taskRunning) : Asleep s' tsk := by
  obtain ⟨states, idle, picked⟩ := schedule_picks h returned
  refine ⟨task, idle ▸ work, ?_, states ▸ blocked⟩
  intro at_current
  rcases picked with at_idle | running
  · exact work (at_current.trans at_idle)
  · exact blocked (at_current ▸ running)

theorem wakeup_frame {s s' : Schedule} {tsk fuel : Nat}
    (returned : wakeupProcess fuel s tsk = some s') :
    s'.state = Function.update s.state tsk taskRunning ∧ s'.current = s.current ∧
      s'.initTask = s.initTask := by
  obtain ⟨u, inserted, made⟩ := Option.bind_eq_some_iff.mp returned
  obtain ⟨state, current, idle⟩ := insert_task_queue_frame inserted
  rw [← Option.some.inj made]
  exact ⟨state, current, idle⟩

theorem wakeup_asleep {s s' : Schedule} {tsk other fuel : Nat}
    (returned : wakeupProcess fuel s tsk = some s') (asleep : Asleep s other)
    (apart : other ≠ tsk) : Asleep s' other := by
  obtain ⟨states, current, idle⟩ := wakeup_frame returned
  apply asleep_congr asleep idle current
  rw [states, Function.update_of_ne apart]

theorem step_asleep {s s' : Schedule} {xs : List Nat} {e : Event} {tsk : Nat}
    (h : Balanced s xs) (asleep : Asleep s tsk) (quiet : e ≠ .wakeup tsk) (step : Step s e s') :
    Asleep s' tsk := by
  cases step with
  | schedule _ fuel returned =>
    exact schedule_asleep h returned asleep.task asleep.work asleep.blocked
  | tick => exact asleep_congr asleep rfl rfl rfl
  | wakeup _ other fuel returned =>
    exact wakeup_asleep returned asleep (fun same => quiet (congrArg Event.wakeup same.symm))
  | block state =>
    have kept : (setState s s.current state).state tsk = s.state tsk :=
      Function.update_of_ne asleep.away _ _
    exact asleep_congr asleep rfl rfl kept

theorem wakeup_returns {s : Schedule} {xs : List Nat} (h : Queue s xs) (tsk : Nat) :
    ∃ s', wakeupProcess (xs.length + 1) s tsk = some s' := by
  have queue : Queue (setState s tsk taskRunning) xs := queue_congr h rfl rfl rfl
  obtain ⟨u, inserted⟩ := insert_task_queue_returns queue tsk (Nat.lt_succ_self xs.length)
  exact ⟨_, Option.bind_eq_some_iff.mpr ⟨u, inserted, rfl⟩⟩

/- Over every run the queue is sorted, holds each waiting task once and no other, agrees
   with the count, and the next call of schedule or of wakeup_process returns. -/
theorem run_queue_invariant {s₀ s : Schedule} {es : List Event} (boot : Booting s₀)
    (run : Steps (Guarded Admissible Step) (scheduleInit s₀) es s) :
    ∃ xs, Ring s.links taskQueue xs ∧ xs.Pairwise (NotLater s.vrunTime) ∧ xs.Nodup ∧
      (∀ n, n ∈ xs ↔ Waiting s n) ∧ s.runningTaskCount = xs.length + 1 ∧
      ∀ e, ∃ s', Step s e s' := by
  obtain ⟨xs, balanced⟩ := @invariant_of_step _ _ _ (fun s => ∃ xs, Balanced s xs)
    step_balanced _ _ _ run ⟨[], schedule_init_balanced boot⟩
  refine ⟨xs, balanced.queue.ring, balanced.queue.sorted,
    (List.nodup_cons.mp balanced.queue.ring.nodup).2, balanced.members,
    balanced.queue.counted, ?_⟩
  intro e
  cases e with
  | schedule =>
    obtain ⟨s', returned⟩ := schedule_returns balanced (Nat.lt_succ_self xs.length)
    exact ⟨s', .schedule s s' _ returned⟩
  | tick => exact ⟨tick s, .tick s⟩
  | wakeup tsk =>
    obtain ⟨s', returned⟩ := wakeup_returns balanced.queue tsk
    exact ⟨s', .wakeup s s' tsk _ returned⟩
  | block state => exact ⟨_, .block s state⟩

def bootTask : Schedule :=
  ⟨⟨id, id⟩, fun n => if n = 1 then taskRunning else 0, fun _ => false, fun _ => 2, fun _ => 0,
    0, 0, 1, 1⟩

def made : Schedule := (wakeupProcess 1 (scheduleInit bootTask) 2).getD bootTask

def switched : Schedule := (schedule 1 (tick made)).getD bootTask

theorem boot_task_booting : Booting bootTask := by
  constructor
  · intro n _ running
    by_cases at_one : n = 1
    · exact Or.inl at_one
    · simp [bootTask, at_one, taskRunning] at running
  · decide
  · decide

theorem balanced_asleep {s : Schedule} {tsk : Nat} (balanced : ∃ xs, Balanced s xs)
    (blocked : s.state tsk ≠ taskRunning) : ¬ InQueue s tsk := by
  obtain ⟨xs, h⟩ := balanced
  intro queued
  have member := (inQueue_iff h.queue.ring tsk).mp queued
  exact blocked ((h.members tsk).mp member).2.2.2

/- The steps as a function; a wakeup of a task that is runnable already is none. -/
def next (s : Schedule) : Event → Option Schedule
  | .schedule => schedule s.runningTaskCount.toNat s
  | .tick => some (tick s)
  | .wakeup tsk =>
    if tsk ≠ taskQueue ∧ tsk ≠ s.current ∧ s.state tsk ≠ taskRunning then
      wakeupProcess s.runningTaskCount.toNat s tsk
    else none
  | .block state => some (setState s s.current state)

theorem next_step (s : Schedule) (e : Event) (t : Schedule) (balanced : ∃ xs, Balanced s xs)
    (taken : next s e = some t) : Guarded Admissible Step s e t := by
  cases e with
  | schedule => exact ⟨.schedule s t _ taken, trivial⟩
  | tick =>
    cases taken
    exact ⟨.tick s, trivial⟩
  | wakeup tsk =>
    obtain ⟨⟨real, other, blocked⟩, returned⟩ := Option.ite_none_right_eq_some.mp taken
    exact ⟨.wakeup s t tsk _ returned, real, other, balanced_asleep balanced blocked⟩
  | block state =>
    cases taken
    exact ⟨.block s state, trivial⟩

theorem steps_of_next {s t : Schedule} {es : List Event} (balanced : ∃ xs, Balanced s xs)
    (ran : exec next s es = some t) : Steps (Guarded Admissible Step) s es t :=
  steps_of_exec_within step_balanced next_step balanced ran

def turns : List Event :=
  [.wakeup 2, .wakeup 3, .wakeup 4, .tick, .schedule, .tick, .schedule, .block 2, .schedule, .tick,
    .schedule, .wakeup 3, .tick, .tick, .schedule, .tick]

theorem run_queue_invariant_turns : ∃ s, exec next (scheduleInit bootTask) turns = some s ∧
    s.runningTaskCount = 3 ∧
    ∃ xs, Ring s.links taskQueue xs ∧ xs.Pairwise (NotLater s.vrunTime) ∧ xs.Nodup ∧
      (∀ n, n ∈ xs ↔ Waiting s n) ∧ s.runningTaskCount = xs.length + 1 ∧
      ∀ e, ∃ s', Step s e s' := by
  have ran : (exec next (scheduleInit bootTask) turns).map (·.runningTaskCount) = some 3 := by
    decide +kernel
  obtain ⟨s, reached, three⟩ := Option.map_eq_some_iff.mp ran
  exact ⟨s, reached, three, run_queue_invariant boot_task_booting
    (steps_of_next ⟨[], schedule_init_balanced boot_task_booting⟩ reached)⟩

end RunQueue

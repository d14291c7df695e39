import Q2os.CircularList
import Q2os.Run

/- Tasks: do_fork, do_exit, sys_wait4 and schedule on one CPU. Each call is one step up to
   its next schedule(); the locals of a sys_wait4 asleep are part of the state. Addresses of
   task_structs are numbers, the one of init_task_union.task is initTask. -/
namespace Process
open Run

inductive TaskState where
  | running
  | interruptible
  | uninterruptible
  | zombie
deriving DecidableEq, Repr

/-- The fields of task_struct that fork, exit and wait4 use. waitChildexit lists the tasks
of the wait queue in order. -/
structure TaskStruct where
  state : TaskState
  pid : Nat
  exitCode : Nat
  next : Nat
  parent : Nat
  waitChildexit : List Nat

/- The locals of sys_wait4 that are still used after interruptible_sleep_on. -/
structure Wait where
  tsk : Nat
  child : Nat
  pid : Nat
deriving DecidableEq

/-- task is the memory of the task_structs: kfree leaves it as it is. live holds from kmalloc
in do_fork to kfree in sys_wait4. runQueue is the task queue without its order by
vrun_time: every queued task may be the one that runs next. -/
structure Kernel where
  task : Nat → TaskStruct
  live : Nat → Bool
  current : Nat
  runQueue : List Nat
  waiting : Nat → Option Wait
  globalPid : Nat

def initTask : Nat := 0

def boot : Kernel where
  task := fun _ => ⟨.running, 0, 0, initTask, initTask, []⟩
  live := fun _ => false
  current := initTask
  runQueue := []
  waiting := fun _ => none
  globalPid := 0

def nextTask (k : Kernel) (a : Nat) : Nat := (k.task a).next
def stateOf (k : Kernel) (a : Nat) : TaskState := (k.task a).state

def setTask (k : Kernel) (a : Nat) (t : TaskStruct) : Kernel :=
  { k with task := Function.update k.task a t }

def setState (k : Kernel) (a : Nat) (s : TaskState) : Kernel :=
  setTask k a { k.task a with state := s }

def setNext (k : Kernel) (a v : Nat) : Kernel := setTask k a { k.task a with next := v }

def setWaitChildexit (k : Kernel) (a : Nat) (q : List Nat) : Kernel :=
  setTask k a { k.task a with waitChildexit := q }

def insertTaskQueue (k : Kernel) (tsk : Nat) : Kernel :=
  if tsk = initTask then k else { k with runQueue := tsk :: k.runQueue }

def wakeupProcess (k : Kernel) (tsk : Nat) : Kernel := insertTaskQueue (setState k tsk .running) tsk

def wakeup (k : Kernel) (a : Nat) : Kernel :=
  match (k.task a).waitChildexit with
  | [] => k
  | w :: rest =>
    if stateOf k w = .interruptible then wakeupProcess (setWaitChildexit k a rest) w else k

def interruptibleSleepOn (k : Kernel) (a : Nat) : Kernel :=
  let k := setState k k.current .interruptible
  setWaitChildexit k a ((k.task a).waitChildexit ++ [k.current])

/- do_fork once kmalloc has returned tsk. The copy_ functions never report an error. -/
def doFork (k : Kernel) (tsk : Nat) : Kernel :=
  let k := setTask k tsk
    { k.task k.current with
      pid := k.globalPid, state := .uninterruptible, next := nextTask k initTask }
  let k := { k with live := Function.update k.live tsk true, globalPid := k.globalPid + 1 }
  let k := setNext k initTask tsk
  let k := setTask k tsk { k.task tsk with parent := k.current, waitChildexit := [] }
  wakeupProcess k tsk

def becomeZombie (k : Kernel) (code : Nat) : Kernel :=
  setTask k k.current { k.task k.current with state := .zombie, exitCode := code }

def exitNotify (k : Kernel) : Kernel := wakeup k (k.task k.current).parent

/- do_exit up to its schedule(). -/
def doExit (k : Kernel) (code : Nat) : Kernel := exitNotify (becomeZombie k code)

/- The loop of sys_wait4 along next: none when it has not ended within the fuel. -/
def searchChild (k : Kernel) (pid : Nat) : Nat → Nat → Option (Option (Nat × Nat))
  | 0, _ => none
  | fuel + 1, tsk =>
    if nextTask k tsk = initTask then some none
    else if (k.task (nextTask k tsk)).pid = pid then some (some (tsk, nextTask k tsk))
    else searchChild k pid fuel (nextTask k tsk)

/- tsk->next = child->next; exit_mm(child); kfree(child). The mm is freed together with the
   structure that points to it. -/
def reap (k : Kernel) (tsk child : Nat) : Kernel :=
  let k := setNext k tsk (nextTask k child)
  { k with live := Function.update k.live child false }

def sleepForChild (k : Kernel) (w : Wait) : Kernel :=
  interruptibleSleepOn { k with waiting := Function.update k.waiting k.current (some w) } k.current

def switchTo (k : Kernel) (next : Nat) : Kernel :=
  let k := { k with runQueue := k.runQueue.erase next }
  let k := if stateOf k k.current = .running then insertTaskQueue k k.current else k
  { k with current := next }

/-- What the current task does. An allocation carries the address that kmalloc returned; a
reaping call carries the values of its locals. -/
inductive Event where
  | fork (task : Nat)
  | forkFails
  | exit (code : Nat)
  | waitFails (pid : Nat) (options : Int)
  | wait (pid tsk child : Nat)
  | sleep (pid tsk child : Nat)
  | resume (pid tsk child : Nat)
  | schedule (next : Option Nat)

def Ready (k : Kernel) : Prop := stateOf k k.current = .running ∧ k.waiting k.current = none

/- A call of sys_wait4 found child behind tsk. -/
def Finds (k : Kernel) (pid tsk child : Nat) : Prop :=
  ∃ fuel, searchChild k pid fuel initTask = some (some (tsk, child))

/- The idle task forks and schedules only. A zombie that gets the CPU back goes through
   do_exit again. schedule keeps the current task only if it is running. -/
inductive Step : Kernel → Event → Kernel → Prop where
  | fork (k : Kernel) (tsk : Nat) (ready : Ready k) (fresh : k.live tsk = false)
      (other : tsk ≠ initTask) : Step k (.fork tsk) (doFork k tsk)
  | forkFails (k : Kernel) (ready : Ready k) : Step k .forkFails k
  | exit (k : Kernel) (code : Nat) (user : k.current ≠ initTask)
      (ready : Ready k ∨ stateOf k k.current = .zombie) : Step k (.exit code) (doExit k code)
  | noChild (k : Kernel) (pid fuel : Nat) (options : Int) (ready : Ready k)
      (user : k.current ≠ initTask) (absent : searchChild k pid fuel initTask = some none) :
      Step k (.waitFails pid options) k
  | badOptions (k : Kernel) (pid tsk child : Nat) (options : Int) (ready : Ready k)
      (user : k.current ≠ initTask) (found : Finds k pid tsk child) (set : options ≠ 0) :
      Step k (.waitFails pid options) k
  | wait (k : Kernel) (pid tsk child : Nat) (ready : Ready k) (user : k.current ≠ initTask)
      (found : Finds k pid tsk child) (dead : stateOf k child = .zombie) :
      Step k (.wait pid tsk child) (reap k tsk child)
  | sleep (k : Kernel) (pid tsk child : Nat) (ready : Ready k) (user : k.current ≠ initTask)
      (found : Finds k pid tsk child) (alive : stateOf k child ≠ .zombie) :
      Step k (.sleep pid tsk child) (sleepForChild k ⟨tsk, child, pid⟩)
  | resume (k : Kernel) (pid tsk child : Nat) (awake : stateOf k k.current = .running)
      (locals : k.waiting k.current = some ⟨tsk, child, pid⟩) :
      Step k (.resume pid tsk child)
        (reap { k with waiting := Function.update k.waiting k.current none } tsk child)
  | stay (k : Kernel) (awake : stateOf k k.current = .running) : Step k (.schedule none) k
  | switch (k : Kernel) (next : Nat) (queued : next ∈ k.runQueue) :
      Step k (.schedule (some next)) (switchTo k next)
  | idle (k : Kernel) (empty : k.runQueue = []) :
      Step k (.schedule (some initTask)) (switchTo k initTask)

/- What each operation does to the next pointers and to the live structures. -/

theorem next_set_task (k : Kernel) (a : Nat) (t : TaskStruct) :
    nextTask (setTask k a t) = Function.update (nextTask k) a t.next := by
  funext b
  by_cases same : b = a
  · subst same
    simp [nextTask, setTask]
  · simp [nextTask, setTask, same]

theorem next_set_task_same (k : Kernel) (a : Nat) (t : TaskStruct) (same : t.next = nextTask k a) :
    nextTask (setTask k a t) = nextTask k := by
  rw [next_set_task, same, Function.update_eq_self]

@[simp] theorem next_set_state (k : Kernel) (a : Nat) (s : TaskState) :
    nextTask (setState k a s) = nextTask k :=
  next_set_task_same k a _ rfl

@[simp] theorem next_set_wait_childexit (k : Kernel) (a : Nat) (q : List Nat) :
    nextTask (setWaitChildexit k a q) = nextTask k :=
  next_set_task_same k a _ rfl

@[simp] theorem next_insert_task_queue (k : Kernel) (a : Nat) :
    nextTask (insertTaskQueue k a) = nextTask k := by
  unfold insertTaskQueue
  split <;> rfl

@[simp] theorem next_wakeup_process (k : Kernel) (a : Nat) :
    nextTask (wakeupProcess k a) = nextTask k := by
  simp [wakeupProcess]

@[simp] theorem next_wakeup (k : Kernel) (a : Nat) : nextTask (wakeup k a) = nextTask k := by
  unfold wakeup
  split
  · rfl
  · split <;> simp

theorem next_become_zombie (k : Kernel) (code : Nat) :
    nextTask (becomeZombie k code) = nextTask k :=
  next_set_task_same k k.current _ rfl

theorem next_do_exit (k : Kernel) (code : Nat) : nextTask (doExit k code) = nextTask k := by
  rw [doExit, exitNotify, next_wakeup, next_become_zombie]

theorem next_sleep_for_child (k : Kernel) (w : Wait) :
    nextTask (sleepForChild k w) = nextTask k := by
  unfold sleepForChild interruptibleSleepOn
  rw [next_set_wait_childexit, next_set_state]
  rfl

theorem task_insert_task_queue (k : Kernel) (a : Nat) : (insertTaskQueue k a).task = k.task := by
  unfold insertTaskQueue
  split <;> rfl

theorem task_switch_to (k : Kernel) (next : Nat) : (switchTo k next).task = k.task := by
  unfold switchTo
  dsimp only
  split
  · exact task_insert_task_queue _ _
  · rfl

theorem next_switch_to (k : Kernel) (next : Nat) : nextTask (switchTo k next) = nextTask k := by
  funext b
  rw [nextTask, task_switch_to, nextTask]

theorem task_do_fork_new (k : Kernel) {tsk : Nat} (user : tsk ≠ initTask) :
    (doFork k tsk).task tsk =
      { k.task k.current with
        state := .running, pid := k.globalPid, next := nextTask k initTask,
        parent := k.current, waitChildexit := [] } := by
  simp [doFork, wakeupProcess, task_insert_task_queue, setState, setTask, setNext, user]

theorem task_do_fork_init (k : Kernel) {tsk : Nat} (user : tsk ≠ initTask) :
    (doFork k tsk).task initTask = { k.task initTask with next := tsk } := by
  simp [doFork, wakeupProcess, task_insert_task_queue, setState, setTask, setNext, user.symm]

theorem task_do_fork_other (k : Kernel) {tsk b : Nat} (old : b ≠ tsk) (user : b ≠ initTask) :
    (doFork k tsk).task b = k.task b := by
  simp [doFork, wakeupProcess, task_insert_task_queue, setState, setTask, setNext, old, user]

theorem next_do_fork (k : Kernel) {tsk : Nat} (user : tsk ≠ initTask) :
    nextTask (doFork k tsk) =
      Function.update (Function.update (nextTask k) tsk (nextTask k initTask)) initTask tsk := by
  funext b
  by_cases at_init : b = initTask
  · subst at_init
    rw [nextTask, task_do_fork_init k user, Function.update_self]
  · rw [Function.update_of_ne at_init]
    by_cases at_tsk : b = tsk
    · subst at_tsk
      rw [nextTask, task_do_fork_new k user, Function.update_self]
    · rw [nextTask, task_do_fork_other k at_tsk at_init, Function.update_of_ne at_tsk, nextTask]

theorem next_reap (k : Kernel) (tsk child : Nat) :
    nextTask (reap k tsk child) = Function.update (nextTask k) tsk (nextTask k child) :=
  next_set_task k tsk _

@[simp] theorem live_insert_task_queue (k : Kernel) (a : Nat) :
    (insertTaskQueue k a).live = k.live := by
  unfold insertTaskQueue
  split <;> rfl

@[simp] theorem live_wakeup_process (k : Kernel) (a : Nat) :
    (wakeupProcess k a).live = k.live := by
  simp [wakeupProcess, setState, setTask]

@[simp] theorem live_wakeup (k : Kernel) (a : Nat) : (wakeup k a).live = k.live := by
  unfold wakeup
  split
  · rfl
  · split <;> simp [setWaitChildexit, setTask]

@[simp] theorem live_do_exit (k : Kernel) (code : Nat) : (doExit k code).live = k.live := by
  simp [doExit, exitNotify, becomeZombie, setTask]

@[simp] theorem live_sleep_for_child (k : Kernel) (w : Wait) :
    (sleepForChild k w).live = k.live := rfl

@[simp] theorem live_switch_to (k : Kernel) (next : Nat) : (switchTo k next).live = k.live := by
  unfold switchTo
  dsimp only
  split <;> simp

@[simp] theorem live_do_fork (k : Kernel) (tsk : Nat) :
    (doFork k tsk).live = Function.update k.live tsk true := by
  simp [doFork, setTask, setNext]

@[simp] theorem live_reap (k : Kernel) (tsk child : Nat) :
    (reap k tsk child).live = Function.update k.live child false := rfl

def pidOf (k : Kernel) (a : Nat) : Nat := (k.task a).pid

theorem state_set_task (k : Kernel) (a : Nat) (t : TaskStruct) :
    stateOf (setTask k a t) = Function.update (stateOf k) a t.state := by
  funext b
  by_cases same : b = a
  · subst same
    simp [stateOf, setTask]
  · simp [stateOf, setTask, same]

theorem pid_set_task_same (k : Kernel) (a : Nat) (t : TaskStruct) (same : t.pid = pidOf k a) :
    pidOf (setTask k a t) = pidOf k := by
  funext b
  by_cases at_a : b = a
  · subst at_a
    simp [pidOf, setTask, same]
  · simp [pidOf, setTask, at_a]

@[simp] theorem state_set_state (k : Kernel) (a : Nat) (s : TaskState) :
    stateOf (setState k a s) = Function.update (stateOf k) a s :=
  state_set_task k a _

@[simp] theorem pid_set_state (k : Kernel) (a : Nat) (s : TaskState) :
    pidOf (setState k a s) = pidOf k :=
  pid_set_task_same k a _ rfl

@[simp] theorem state_set_wait_childexit (k : Kernel) (a : Nat) (q : List Nat) :
    stateOf (setWaitChildexit k a q) = stateOf k :=
  (state_set_task k a _).trans (Function.update_eq_self a (stateOf k))

@[simp] theorem pid_set_wait_childexit (k : Kernel) (a : Nat) (q : List Nat) :
    pidOf (setWaitChildexit k a q) = pidOf k :=
  pid_set_task_same k a _ rfl

@[simp] theorem state_insert_task_queue (k : Kernel) (a : Nat) :
    stateOf (insertTaskQueue k a) = stateOf k := by
  unfold insertTaskQueue
  split <;> rfl

@[simp] theorem pid_insert_task_queue (k : Kernel) (a : Nat) :
    pidOf (insertTaskQueue k a) = pidOf k := by
  unfold insertTaskQueue
  split <;> rfl

theorem state_do_fork (k : Kernel) {tsk : Nat} (user : tsk ≠ initTask) :
    stateOf (doFork k tsk) = Function.update (stateOf k) tsk .running := by
  funext b
  by_cases at_tsk : b = tsk
  · subst at_tsk
    rw [stateOf, task_do_fork_new k user, Function.update_self]
  · rw [Function.update_of_ne at_tsk]
    by_cases at_init : b = initTask
    · subst at_init
      rw [stateOf, task_do_fork_init k user, stateOf]
    · rw [stateOf, task_do_fork_other k at_tsk at_init, stateOf]

theorem pid_do_fork (k : Kernel) {tsk b : Nat} (user : tsk ≠ initTask) (old : b ≠ tsk) :
    pidOf (doFork k tsk) b = pidOf k b := by
  by_cases at_init : b = initTask
  · subst at_init
    rw [pidOf, task_do_fork_init k user, pidOf]
  · rw [pidOf, task_do_fork_other k old at_init, pidOf]

theorem queue_do_fork (k : Kernel) {tsk : Nat} (user : tsk ≠ initTask) :
    (doFork k tsk).runQueue = tsk :: k.runQueue := by
  simp [doFork, wakeupProcess, insertTaskQueue, setState, setTask, setNext, user]

@[simp] theorem current_do_fork (k : Kernel) (tsk : Nat) :
    (doFork k tsk).current = k.current := by
  unfold doFork wakeupProcess insertTaskQueue
  split <;> rfl

@[simp] theorem waiting_do_fork (k : Kernel) (tsk : Nat) :
    (doFork k tsk).waiting = k.waiting := by
  unfold doFork wakeupProcess insertTaskQueue
  split <;> rfl

theorem state_reap (k : Kernel) (tsk child : Nat) : stateOf (reap k tsk child) = stateOf k :=
  (state_set_task k tsk { k.task tsk with next := nextTask k child }).trans
    (Function.update_eq_self tsk (stateOf k))

theorem pid_reap (k : Kernel) (tsk child : Nat) : pidOf (reap k tsk child) = pidOf k :=
  pid_set_task_same k tsk _ rfl

theorem state_become_zombie (k : Kernel) (code : Nat) :
    stateOf (becomeZombie k code) = Function.update (stateOf k) k.current .zombie :=
  state_set_task k k.current _

theorem pid_become_zombie (k : Kernel) (code : Nat) : pidOf (becomeZombie k code) = pidOf k :=
  pid_set_task_same k k.current _ rfl

theorem parent_become_zombie (k : Kernel) (code a : Nat) :
    ((becomeZombie k code).task a).parent = (k.task a).parent := by
  by_cases here : a = k.current
  · subst here
    simp [becomeZombie, setTask]
  · simp [becomeZombie, setTask, here]

theorem waits_become_zombie (k : Kernel) (code a : Nat) :
    ((becomeZombie k code).task a).waitChildexit = (k.task a).waitChildexit := by
  by_cases here : a = k.current
  · subst here
    simp [becomeZombie, setTask]
  · simp [becomeZombie, setTask, here]

theorem state_sleep_for_child (k : Kernel) (w : Wait) :
    stateOf (sleepForChild k w) = Function.update (stateOf k) k.current .interruptible := by
  unfold sleepForChild interruptibleSleepOn
  rw [state_set_wait_childexit, state_set_state]
  rfl

theorem pid_sleep_for_child (k : Kernel) (w : Wait) : pidOf (sleepForChild k w) = pidOf k := by
  unfold sleepForChild interruptibleSleepOn
  rw [pid_set_wait_childexit, pid_set_state]
  rfl

/- A wakeup does nothing or makes the first sleeper runnable. -/
inductive WakesUp (k : Kernel) (a : Nat) : Kernel → Prop where
  | none : WakesUp k a k
  | first (w : Nat) (rest : List Nat) (waits : (k.task a).waitChildexit = w :: rest)
      (asleep : stateOf k w = .interruptible) :
      WakesUp k a (wakeupProcess (setWaitChildexit k a rest) w)

theorem wakeup_wakes (k : Kernel) (a : Nat) : WakesUp k a (wakeup k a) := by
  unfold wakeup
  split
  · exact .none
  · next w rest waits =>
    split
    · next asleep => exact .first w rest waits asleep
    · exact .none

theorem state_wakeup_process (k : Kernel) (a w : Nat) (rest : List Nat) :
    stateOf (wakeupProcess (setWaitChildexit k a rest) w) =
      Function.update (stateOf k) w .running := by
  simp [wakeupProcess]

theorem pid_wakeup_process (k : Kernel) (a w : Nat) (rest : List Nat) :
    pidOf (wakeupProcess (setWaitChildexit k a rest) w) = pidOf k := by
  simp [wakeupProcess]

theorem queue_wakeup_process (k : Kernel) (a : Nat) {w : Nat} (rest : List Nat)
    (user : w ≠ initTask) :
    (wakeupProcess (setWaitChildexit k a rest) w).runQueue = w :: k.runQueue := by
  simp [wakeupProcess, insertTaskQueue, setState, setWaitChildexit, setTask, user]

@[simp] theorem current_wakeup_process (k : Kernel) (a w : Nat) (rest : List Nat) :
    (wakeupProcess (setWaitChildexit k a rest) w).current = k.current := by
  unfold wakeupProcess insertTaskQueue
  split <;> rfl

@[simp] theorem waiting_wakeup_process (k : Kernel) (a w : Nat) (rest : List Nat) :
    (wakeupProcess (setWaitChildexit k a rest) w).waiting = k.waiting := by
  unfold wakeupProcess insertTaskQueue
  split <;> rfl

theorem queue_switch_to (k : Kernel) (next : Nat) :
    (switchTo k next).runQueue =
      if stateOf k k.current = .running ∧ k.current ≠ initTask then
        k.current :: k.runQueue.erase next
      else k.runQueue.erase next := by
  have kept : stateOf { k with runQueue := k.runQueue.erase next } = stateOf k := rfl
  unfold switchTo insertTaskQueue
  dsimp only
  rw [kept]
  by_cases running : stateOf k k.current = .running
  · by_cases user : k.current = initTask <;> simp [running, user]
  · simp [running]

@[simp] theorem waiting_switch_to (k : Kernel) (next : Nat) :
    (switchTo k next).waiting = k.waiting := by
  unfold switchTo insertTaskQueue
  dsimp only
  split
  · split <;> rfl
  · rfl

end Process

import Mathlib.Algebra.Group.Int.Defs
import Mathlib.Algebra.Group.Nat.Defs
import Q2os.KernelList
import Q2os.Run

/- Semaphores: a counter and the wait list of semaphore.h, each call up to its schedule(). -/
namespace Semaphore
open CircularList KernelList Run

def taskRunning : Nat := 1
def taskUninterruptible : Nat := 4

/- A wait_queue_T is none for the one of the semaphore and some t for the local variable of
   the __down that the task t is in; tsk is its field of that name, none for NULL. passed,
   blocked, woken and ups are the history: the calls of semaphore_down that found a unit, those
   that went to sleep, the tasks __up passed to insert_task_queue, and the calls of
   semaphore_up. -/
structure System where
  counter : Int
  links : Links (Option Nat)
  tsk : Option Nat → Option Nat
  state : Nat → Nat
  needSchedule : Nat → Bool
  passed : List Nat
  blocked : List Nat
  woken : List Nat
  ups : Nat

def toLong (value : Int) : Int := value.bmod (2 ^ 64)

def waitQueueInit (s : System) (wait tsk : Option Nat) : System :=
  { s with links := listInit s.links wait, tsk := Function.update s.tsk wait tsk }

def semaphoreInit (s : System) (count : Nat) : System :=
  { waitQueueInit { s with counter := toLong count } none none with
    passed := [], blocked := [], woken := [], ups := 0 }

/- None where wait->tsk is NULL. -/
def wakeFirst (s : System) (current : Nat) : Option System :=
  let wait := s.links.next none
  (s.tsk wait).map fun tsk =>
    { s with
      links := listDel s.links wait
      state := Function.update s.state tsk taskRunning
      needSchedule := Function.update s.needSchedule current true
      woken := s.woken ++ [tsk] }

def semaphoreUp (s : System) (current : Nat) : Option System :=
  if listIsEmpty s.links none then some { s with counter := toLong (s.counter + 1), ups := s.ups + 1 }
  else wakeFirst { s with ups := s.ups + 1 } current

/- __down up to schedule(). -/
def goToSleep (s : System) (current : Nat) : System :=
  let s := waitQueueInit s (some current) (some current)
  { s with
    state := Function.update s.state current taskUninterruptible
    links := listAddToBefore s.links none (some current)
    blocked := s.blocked ++ [current] }

def semaphoreDown (s : System) (current : Nat) : System :=
  if s.counter > 0 then { s with counter := toLong (s.counter - 1), passed := s.passed ++ [current] }
  else goToSleep s current

inductive Event where
  | up (current : Nat)
  | down (current : Nat)

def Event.caller : Event → Nat
  | .up current => current
  | .down current => current

def next (s : System) : Event → Option System
  | .up current => semaphoreUp s current
  | .down current => some (semaphoreDown s current)

/- A task that sleeps makes no calls. -/
def Step (s : System) (e : Event) (s' : System) : Prop :=
  s.state e.caller = taskRunning ∧ next s e = some s'

def NoOverflow (s : System) : Event → Prop
  | .up _ => s.counter + 1 < 2 ^ 63
  | .down _ => True

instance (s : System) (e : Event) : Decidable (NoOverflow s e) := by
  cases e <;> simp only [NoOverflow] <;> infer_instance

def granted (s : System) : Nat := s.passed.length + s.woken.length

/-- The wait list with the tasks in it, oldest first. -/
structure Waiting (s : System) (waiting : List Nat) : Prop where
  ring : Ring s.links none (waiting.map some)
  task : ∀ t ∈ waiting, s.tsk (some t) = some t
  asleep : ∀ t ∈ waiting, s.state t = taskUninterruptible
  in_order : s.blocked = s.woken ++ waiting

/-- The units of a semaphore that began with c of them. -/
structure Units (c : Nat) (s : System) : Prop where
  long : s.counter < 2 ^ 63
  nonneg : 0 ≤ s.counter
  none_left : listIsEmpty s.links none = false → s.counter = 0
  counted : (granted s : Int) = c + s.ups - s.counter

theorem toLong_small {value : Int} (nonneg : 0 ≤ value) (small : value < 2 ^ 63) :
    toLong value = value := by
  have whole : (((2 ^ 64 : Nat) : Nat) : Int) = 18446744073709551616 := by decide
  apply Int.bmod_eq_of_le_mul_two
  · rw [whole]
    omega
  · rw [whole]
    omega

theorem init_waiting (s : System) (c : Nat) : Waiting (semaphoreInit s c) [] :=
  ⟨list_init_ring _ _, by simp, by simp, rfl⟩

theorem init_units (s : System) {c : Nat} (small : c < 2 ^ 63) : Units c (semaphoreInit s c) := by
  have long : (c : Int) < 2 ^ 63 := by exact_mod_cast small
  have counter : (semaphoreInit s c).counter = c := by
    simp only [semaphoreInit, waitQueueInit]
    exact toLong_small (Int.natCast_nonneg c) long
  have empty : listIsEmpty (semaphoreInit s c).links none = true :=
    (list_is_empty_iff (init_waiting s c).ring).mpr rfl
  refine ⟨?_, ?_, ?_, ?_⟩
  · rw [counter]
    exact long
  · rw [counter]
    exact Int.natCast_nonneg c
  · intro some_wait
    rw [empty] at some_wait
    cases some_wait
  · rw [counter]
    simp [granted, semaphoreInit]

theorem up_cases {s s' : System} {waiting : List Nat} {current : Nat} (h : Waiting s waiting)
    (ran : semaphoreUp s current = some s') :
    (waiting = [] ∧ s' = { s with counter := toLong (s.counter + 1), ups := s.ups + 1 }) ∨
    ∃ first rest, waiting = first :: rest ∧ s' = { s with
      links := listDel s.links (some first)
      state := Function.update s.state first taskRunning
      needSchedule := Function.update s.needSchedule current true
      woken := s.woken ++ [first]
      ups := s.ups + 1 } := by
  cases waiting with
  | nil =>
    have empty : listIsEmpty s.links none = true := (list_is_empty_iff h.ring).mpr rfl
    rw [semaphoreUp, if_pos empty] at ran
    cases ran
    exact Or.inl ⟨rfl, rfl⟩
  | cons first rest =>
    have some_wait : ¬ listIsEmpty s.links none = true := by
      rw [list_is_empty_iff h.ring]
      simp
    have wait : s.links.next none = some first := h.ring.forward.1
    have task := h.task first List.mem_cons_self
    rw [semaphoreUp, if_neg some_wait] at ran
    simp only [wakeFirst, wait, task, Option.map_some] at ran
    cases ran
    exact Or.inr ⟨first, rest, rfl, rfl⟩

theorem down_cases (s : System) (current : Nat) :
    (0 < s.counter ∧ semaphoreDown s current =
      { s with counter := toLong (s.counter - 1), passed := s.passed ++ [current] }) ∨
    (s.counter ≤ 0 ∧ semaphoreDown s current = goToSleep s current) := by
  unfold semaphoreDown
  by_cases left : s.counter > 0
  · exact Or.inl ⟨left, if_pos left⟩
  · exact Or.inr ⟨Int.not_lt.mp left, if_neg left⟩

theorem init_ring {l : Links (Option Nat)} {n : Option Nat} {xs : List (Option Nat)}
    (ring : Ring l none xs) (fresh : n ∉ none :: xs) : Ring (listInit l n) none xs := by
  have off : ∀ x ∈ none :: xs, x ≠ n := by
    intro x member same
    exact fresh (same ▸ member)
  refine ⟨linked_congr ?_ ring.forward, linked_congr ?_ ring.backward, ring.nodup⟩
  · intro x member
    exact Function.update_of_ne (off x member) _ _
  · intro x member
    apply Function.update_of_ne (off x ?_)
    simpa using member

theorem sleep_waiting {s : System} {waiting : List Nat} {current : Nat} (h : Waiting s waiting)
    (awake : s.state current = taskRunning) :
    Waiting (goToSleep s current) (waiting ++ [current]) := by
  have outside : current ∉ waiting := by
    intro member
    have asleep := h.asleep current member
    rw [awake] at asleep
    cases asleep
  have fresh : some current ∉ none :: waiting.map some := by simpa using outside
  refine ⟨?_, fun t member => ?_, fun t member => ?_, ?_⟩
  · have ring := init_ring h.ring fresh
    have added := @list_add_to_before_ring _ _ _ none (some current) (waiting.map some) []
      (by simpa using ring) (by simpa using fresh)
    rw [List.map_append]
    exact added
  · by_cases same : t = current
    · rw [same]
      exact Function.update_self ..
    · have old : t ∈ waiting := by simpa [same] using member
      have other : some t ≠ some current := by simpa using same
      exact (Function.update_of_ne other _ _).trans (h.task t old)
  · by_cases same : t = current
    · rw [same]
      exact Function.update_self ..
    · have old : t ∈ waiting := by simpa [same] using member
      exact (Function.update_of_ne same _ _).trans (h.asleep t old)
  · show s.blocked ++ [current] = s.woken ++ (waiting ++ [current])
    rw [h.in_order, List.append_assoc]

theorem step_waiting {s s' : System} {e : Event} {waiting : List Nat} (h : Waiting s waiting)
    (step : Step s e s') : ∃ waiting', Waiting s' waiting' := by
  obtain ⟨awake, ran⟩ := step
  cases e with
  | up current =>
    rcases up_cases h ran with ⟨rfl, rfl⟩ | ⟨first, rest, rfl, rfl⟩
    · exact ⟨[], h.ring, h.task, h.asleep, h.in_order⟩
    · have nodup := (List.nodup_cons.mp h.ring.nodup).2
      have absent : some first ∉ rest.map some := (List.nodup_cons.mp nodup).1
      refine ⟨rest, list_del_head_ring h.ring, fun t member => ?_, fun t member => ?_, ?_⟩
      · exact h.task t (List.mem_cons_of_mem _ member)
      · have other : t ≠ first := by
          rintro rfl
          exact absent (List.mem_map_of_mem member)
        exact (Function.update_of_ne other _ _).trans (h.asleep t (List.mem_cons_of_mem _ member))
      · show s.blocked = s.woken ++ [first] ++ rest
        rw [h.in_order, List.append_assoc, List.singleton_append]
  | down current =>
    cases ran
    rcases down_cases s current with ⟨_, same⟩ | ⟨_, same⟩
    · rw [same]
      exact ⟨waiting, h.ring, h.task, h.asleep, h.in_order⟩
    · rw [same]
      exact ⟨waiting ++ [current], sleep_waiting h awake⟩

theorem step_units {c : Nat} {s s' : System} {e : Event} {waiting : List Nat}
    (h : Waiting s waiting) (units : Units c s) (step : Guarded NoOverflow Step s e s') :
    Units c s' := by
  obtain ⟨⟨awake, ran⟩, room⟩ := step
  have long := units.long
  have nonneg := units.nonneg
  have counted := units.counted
  have empty_iff := list_is_empty_iff h.ring
  cases e with
  | up current =>
    rcases up_cases h ran with ⟨rfl, rfl⟩ | ⟨first, rest, rfl, rfl⟩
    · have more : toLong (s.counter + 1) = s.counter + 1 := toLong_small (by omega) room
      have empty : listIsEmpty s.links none = true := empty_iff.mpr rfl
      rw [more]
      refine ⟨room, by show 0 ≤ s.counter + 1; omega, fun some_wait => ?_, ?_⟩
      · exact absurd (empty.symm.trans some_wait) (by decide)
      · simp only [granted] at counted ⊢
        omega
    · have some_wait : listIsEmpty s.links none = false := by
        simpa using empty_iff
      have zero := units.none_left some_wait
      refine ⟨long, nonneg, fun _ => zero, ?_⟩
      simp only [granted, List.length_append, List.length_singleton] at counted ⊢
      omega
  | down current =>
    cases ran
    rcases down_cases s current with ⟨left, same⟩ | ⟨none_left, same⟩
    · have less : toLong (s.counter - 1) = s.counter - 1 := toLong_small (by omega) (by omega)
      rw [same, less]
      refine ⟨by show s.counter - 1 < 2 ^ 63; omega, by show 0 ≤ s.counter - 1; omega,
        fun some_wait => ?_, ?_⟩
      · have zero := units.none_left some_wait
        omega
      · simp only [granted, List.length_append, List.length_singleton] at counted ⊢
        omega
    · rw [same]
      have zero : s.counter = 0 := by omega
      exact ⟨long, nonneg, fun _ => zero, counted⟩

/-- After any calls of any tasks the units are accounted for, and the tasks that were woken are
    the first ones that went to sleep, each woken once, with the others waiting in their order. -/
theorem semaphore_accounted (s₀ : System) (c : Nat) (small : c < 2 ^ 63) (es : List Event)
    (s : System) (run : Steps (Guarded NoOverflow Step) (semaphoreInit s₀ c) es s) :
    Units c s ∧ ∃ waiting, Waiting s waiting := by
  have keep : ∀ s e s', (Units c s ∧ ∃ waiting, Waiting s waiting) →
      Guarded NoOverflow Step s e s' → Units c s' ∧ ∃ waiting, Waiting s' waiting := by
    rintro s e s' ⟨units, waiting, h⟩ step
    exact ⟨step_units h units step, step_waiting h step.1⟩
  exact invariant_of_step keep run ⟨init_units s₀ small, [], init_waiting s₀ c⟩

def awakeTasks : System :=
  ⟨0, ⟨id, id⟩, fun _ => none, fun _ => taskRunning, fun _ => false, [], [], [], 0⟩

def threeTasks : List Event := [.down 1, .down 2, .down 3, .up 1]

def behind (s : System) (es : List Event) : System := (exec next s es).getD s

theorem threeTasks_run : Steps (Guarded NoOverflow Step) (semaphoreInit awakeTasks 1) threeTasks
    (behind (semaphoreInit awakeTasks 1) threeTasks) :=
  .cons ⟨⟨rfl, rfl⟩, by decide⟩ (.cons ⟨⟨rfl, rfl⟩, by decide⟩ (.cons ⟨⟨rfl, rfl⟩, by decide⟩
    (.cons ⟨⟨rfl, rfl⟩, by decide⟩ (.nil _))))

theorem semaphore_accounted_three :
    Units 1 (behind (semaphoreInit awakeTasks 1) threeTasks) ∧
      (behind (semaphoreInit awakeTasks 1) threeTasks).woken = [2] :=
  ⟨(semaphore_accounted awakeTasks 1 (by decide) threeTasks _ threeTasks_run).1, by decide⟩

end Semaphore

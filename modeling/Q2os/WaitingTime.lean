import Mathlib.Algebra.BigOperators.Group.Finset.Basic
import Q2os.ScheduleTurn

/- How long a task waits for the processor: what the tasks before it may still use up. -/
namespace RunQueue
open CircularList KernelList Run

/- The ticks that a task takes before it is later than v, with the slice that it may keep then. -/
def lead (v x : Int) : Nat := if x ≤ v then (v + 1 - x).toNat + 12 else 0

def ahead (tasks : Finset Nat) (tsk : Nat) (s : Schedule) : Nat :=
  ∑ u ∈ tasks.erase tsk, lead (s.vrunTime tsk).toInt (s.vrunTime u).toInt

/- The ticks until the end of the slice of a task that is already later. -/
def slack (tsk : Nat) (s : Schedule) : Nat :=
  if NotLater s.vrunTime s.current tsk then 0
  else if s.needSchedule s.current then 0 else (max s.cpuExecTaskJiffies 1).toNat

def rank (tasks : Finset Nat) (tsk : Nat) (s : Schedule) : Nat :=
  ahead tasks tsk s + slack tsk s

/- A tick finds none of the tasks with NEED_SCHEDULE, since the interrupt before has called
   schedule, and the virtual time does not wrap. -/
def Attended (tasks : Finset Nat) (s : Schedule) (e : Event) : Prop :=
  s.current ∈ tasks ∧ (e = .tick →
    s.needSchedule s.current = false ∧ (s.vrunTime s.current).toInt + 2 < 2 ^ 63)

def Event.isTick : Event → Bool
  | .tick => true
  | _ => false

/- A task that waits, in a queue whose slices are short. -/
structure InLine (tsk : Nat) (s : Schedule) : Prop where
  balanced : ∃ xs, Balanced s xs
  waits : Waiting s tsk
  slice : s.cpuExecTaskJiffies ≤ 12

section turns
variable {s t : Schedule} {tsk fuel : Nat}

theorem insert_task_queue_times (returned : insertTaskQueue fuel s tsk = some t) :
    t.vrunTime = s.vrunTime ∧ t.needSchedule = s.needSchedule := by
  unfold insertTaskQueue at returned
  split at returned
  · cases returned
    exact ⟨rfl, rfl⟩
  · obtain ⟨_, _, made⟩ := Option.map_eq_some_iff.mp returned
    rw [← made]
    exact ⟨rfl, rfl⟩

theorem insert_current_times (returned : insertCurrent fuel s = some t) :
    t.vrunTime = s.vrunTime := by
  unfold insertCurrent at returned
  split at returned
  · exact (insert_task_queue_times returned).1
  · cases returned
    rfl

theorem set_jiffies_times (returned : setJiffies s tsk = some t)
    (small : s.cpuExecTaskJiffies ≤ 12) :
    t.vrunTime = s.vrunTime ∧ t.cpuExecTaskJiffies ≤ 12 := by
  have share : (4 : Int).tdiv s.runningTaskCount ≤ 4 := Int.tdiv_le_self _ (by decide)
  unfold setJiffies at returned
  split at returned
  · cases returned
    exact ⟨rfl, small⟩
  · split at returned
    · cases returned
    · cases returned
      refine ⟨rfl, ?_⟩
      dsimp only
      split <;> omega

theorem schedule_times {xs : List Nat} (h : Balanced s xs) (returned : schedule fuel s = some t)
    (small : s.cpuExecTaskJiffies ≤ 12) :
    t.vrunTime = s.vrunTime ∧ t.cpuExecTaskJiffies ≤ 12 := by
  obtain ⟨mid, rest, taken, -, way⟩ := schedule_cases h returned
  have slice : mid.cpuExecTaskJiffies ≤ 12 := taken_slice taken ▸ small
  have times : mid.vrunTime = s.vrunTime := by
    rw [taken.same]
    rfl
  rcases way with ⟨-, u, v, inserted, sliced, made⟩ | ⟨-, u, inserted, sliced⟩
  · have kept := insert_current_times inserted
    obtain ⟨same, less⟩ := set_jiffies_times sliced
      ((insert_current_count inserted).2 ▸ slice)
    rw [made]
    exact ⟨same.trans (kept.trans times), less⟩
  · have kept := (insert_task_queue_times inserted).1
    obtain ⟨same, less⟩ := set_jiffies_times sliced
      ((insert_task_queue_count inserted).2 ▸ slice)
    exact ⟨same.trans (kept.trans times), less⟩

theorem schedule_sooner {xs : List Nat} (h : Balanced s xs) (returned : schedule fuel s = some t)
    (waits : Waiting s tsk) : NotLater s.vrunTime t.current tsk := by
  have member := (h.members tsk).mpr waits
  cases xs with
  | nil => cases member
  | cons x rest =>
    have first : NotLater s.vrunTime x tsk := head_least h ((queued_iff h tsk).mpr member)
    rw [schedule_current h returned]
    split
    · exact first
    · rename_i stays
      have before := (stays_running stays).2
      exact Int.le_trans (Int.le_of_lt before) first

end turns

section steps
variable {s t : Schedule} {e : Event} {tasks : Finset Nat} {tsk : Nat}

theorem wakeup_times {fuel other : Nat} (returned : wakeupProcess fuel s other = some t) :
    t.vrunTime = s.vrunTime ∧ t.cpuExecTaskJiffies = s.cpuExecTaskJiffies ∧
      t.needSchedule s.current = true := by
  obtain ⟨u, inserted, made⟩ := Option.bind_eq_some_iff.mp returned
  obtain ⟨times, -⟩ := insert_task_queue_times inserted
  obtain ⟨-, current, -⟩ := insert_task_queue_frame inserted
  have slice := (insert_task_queue_count inserted).2
  obtain rfl := Option.some.inj made
  have here : u.current = s.current := current
  exact ⟨times, slice, by simp [setNeedSchedule, here]⟩

theorem rank_current (sooner : NotLater s.vrunTime s.current tsk) :
    rank tasks tsk s = ahead tasks tsk s := by
  simp [rank, slack, sooner]

theorem lead_less {v x : Int} (sooner : x ≤ v) {cost : Int} (some : 1 ≤ cost) :
    lead v (x + cost) + (if x + cost ≤ v then 1 else 13) ≤ lead v x := by
  unfold lead
  rw [if_pos sooner]
  split <;> omega

/- Time goes up by the cost of a tick, which is one or two. -/
theorem tick_current (low : (s.vrunTime s.current).toInt + 2 < 2 ^ 63) : ∃ cost : Int, 1 ≤ cost ∧
    ((tick s).vrunTime s.current).toInt = (s.vrunTime s.current).toInt + cost ∧
    (tick s).cpuExecTaskJiffies = s.cpuExecTaskJiffies - cost ∧
    (tick s).needSchedule s.current =
      (if s.cpuExecTaskJiffies - cost ≤ 0 then true else s.needSchedule s.current) := by
  refine ⟨if s.priority s.current = 0 ∨ s.priority s.current = 1 then 1 else 2, ?_, ?_, rfl, ?_⟩
  · split <;> decide
  · have bound := BitVec.le_toInt (s.vrunTime s.current)
    simp only [tick, Function.update_self, BitVec.toInt_add]
    split
    · exact Int.bmod_eq_of_le (by simp; omega) (by simp; omega)
    · exact Int.bmod_eq_of_le (by simp; omega) (by simp; omega)
  · simp [tick]

theorem ahead_current (here : s.current ∈ tasks) (other : s.current ≠ tsk) :
    ahead tasks tsk s = lead (s.vrunTime tsk).toInt (s.vrunTime s.current).toInt +
      ∑ u ∈ (tasks.erase tsk).erase s.current,
        lead (s.vrunTime tsk).toInt (s.vrunTime u).toInt := by
  rw [ahead, ← Finset.add_sum_erase _ _ (Finset.mem_erase.mpr ⟨other, here⟩)]

/- Only the current task comes closer to its end, and a tick brings it closer. -/
theorem tick_rank (here : s.current ∈ tasks) (other : s.current ≠ tsk)
    (calm : s.needSchedule s.current = false) (low : (s.vrunTime s.current).toInt + 2 < 2 ^ 63)
    (slice : s.cpuExecTaskJiffies ≤ 12) :
    rank tasks tsk (tick s) + 1 ≤ rank tasks tsk s := by
  obtain ⟨cost, some, later, spent, need⟩ := tick_current low
  have kept : ∀ u, u ≠ s.current → (tick s).vrunTime u = s.vrunTime u :=
    fun u apart => Function.update_of_ne apart _ _
  have same : ahead tasks tsk (tick s) =
      lead (s.vrunTime tsk).toInt ((s.vrunTime s.current).toInt + cost) +
      ∑ u ∈ (tasks.erase tsk).erase s.current,
        lead (s.vrunTime tsk).toInt (s.vrunTime u).toInt := by
    have current : (tick s).current = s.current := rfl
    rw [ahead_current (s := tick s) here other, current, kept tsk other.symm, later]
    congr 1
    apply Finset.sum_congr rfl
    intro u member
    rw [kept u (Finset.ne_of_mem_erase member)]
  have sooner' : NotLater (tick s).vrunTime (tick s).current tsk ↔
      (s.vrunTime s.current).toInt + cost ≤ (s.vrunTime tsk).toInt := by
    have current : (tick s).current = s.current := rfl
    rw [NotLater, current, later, kept tsk other.symm]
  have left : slack tsk (tick s) =
      if (s.vrunTime s.current).toInt + cost ≤ (s.vrunTime tsk).toInt then 0
      else if s.cpuExecTaskJiffies - cost ≤ 0 then 0
      else (max (s.cpuExecTaskJiffies - cost) 1).toNat := by
    have flag : (tick s).needSchedule (tick s).current =
        (if s.cpuExecTaskJiffies - cost ≤ 0 then true else false) := calm ▸ need
    rw [slack, flag, spent]
    simp only [sooner']
    by_cases ends : s.cpuExecTaskJiffies - cost ≤ 0 <;> simp [ends]
  rw [rank, rank, same, left, ahead_current here other]
  by_cases sooner : NotLater s.vrunTime s.current tsk
  · have less := lead_less sooner some
    rw [slack, if_pos sooner]
    by_cases still : (s.vrunTime s.current).toInt + cost ≤ (s.vrunTime tsk).toInt
    · rw [if_pos still] at less ⊢
      omega
    · rw [if_neg still] at less ⊢
      split <;> omega
  · have late : ¬ (s.vrunTime s.current).toInt ≤ (s.vrunTime tsk).toInt := sooner
    have later' : ¬ (s.vrunTime s.current).toInt + cost ≤ (s.vrunTime tsk).toInt := by omega
    rw [slack, if_neg sooner, if_neg later', lead, if_neg later', lead, if_neg late, calm]
    simp only [Bool.false_eq_true, ↓reduceIte]
    split <;> omega

/- A turn leads to the task that waits, or takes off the rank what it has used up. -/
theorem step_rank (s : Schedule) (e : Event) (t : Schedule) (line : InLine tsk s)
    (step : Guarded (Attended tasks) (Guarded Admissible Step) s e t) :
    t.current = tsk ∨ InLine tsk t ∧
      rank tasks tsk t + (if e.isTick then 1 else 0) ≤ rank tasks tsk s := by
  obtain ⟨⟨taken, allowed⟩, here, attended⟩ := step
  have balanced' := step_balanced s e t line.balanced ⟨taken, allowed⟩
  obtain ⟨xs, balanced⟩ := line.balanced
  have waits := line.waits
  cases taken with
  | schedule _ fuel returned =>
    by_cases reached : t.current = tsk
    · exact .inl reached
    · obtain ⟨states, idles, -⟩ := schedule_picks balanced returned
      obtain ⟨times, slice⟩ := schedule_times balanced returned line.slice
      have sooner := schedule_sooner balanced returned waits
      refine .inr ⟨⟨balanced', ⟨waits.1, Ne.symm reached, idles ▸ waits.2.2.1,
        states ▸ waits.2.2.2⟩, slice⟩, ?_⟩
      rw [rank_current (times ▸ sooner), ahead, times]
      exact Nat.le_add_right _ _
  | tick =>
    obtain ⟨calm, low⟩ := attended rfl
    refine .inr ⟨⟨balanced', waits, ?_⟩, tick_rank here (Ne.symm waits.2.1) calm low line.slice⟩
    obtain ⟨cost, some, -, spent, -⟩ := tick_current low
    have slice := line.slice
    omega
  | wakeup _ other fuel returned =>
    obtain ⟨states, current, idles⟩ := wakeup_frame returned
    obtain ⟨times, slice, need⟩ := wakeup_times returned
    refine .inr ⟨⟨balanced', ⟨waits.1, current ▸ waits.2.1, idles ▸ waits.2.2.1, ?_⟩,
      slice ▸ line.slice⟩, ?_⟩
    · rw [states, Function.update_apply]
      split
      · rfl
      · exact waits.2.2.2
    · have less : slack tsk t ≤ slack tsk s := by
        rw [slack, slack, times, current, need]
        split <;> simp
      simp only [rank, ahead, times, Event.isTick]
      simpa using less
  | block state =>
    refine .inr ⟨⟨balanced', ⟨waits.1, waits.2.1, waits.2.2.1, ?_⟩, line.slice⟩, Nat.le_refl _⟩
    simpa [setState, waits.2.1] using waits.2.2.2

theorem step_slice (s : Schedule) (e : Event) (t : Schedule)
    (small : (∃ xs, Balanced s xs) ∧ s.cpuExecTaskJiffies ≤ 12)
    (step : Guarded Admissible Step s e t) :
    (∃ xs, Balanced t xs) ∧ t.cpuExecTaskJiffies ≤ 12 := by
  refine ⟨step_balanced s e t small.1 step, ?_⟩
  obtain ⟨⟨xs, balanced⟩, slice⟩ := small
  obtain ⟨taken, -⟩ := step
  cases taken with
  | schedule _ fuel returned => exact (schedule_times balanced returned slice).2
  | tick =>
    dsimp only [tick]
    split <;> omega
  | wakeup _ other fuel returned => exact (wakeup_times returned).2.1 ▸ slice
  | block state => exact slice

end steps

/-- A task that waits for the processor gets it: as soon as there have been more ticks than the
    tasks that are not later may still take, with what is left of their slices, it has run. -/
theorem waiting_runs {s₀ s t : Schedule} {es fs : List Event} {tasks : Finset Nat} {tsk : Nat}
    (boot : Booting s₀) (before : Steps (Guarded Admissible Step) (scheduleInit s₀) es s)
    (waits : Waiting s tsk)
    (run : Steps (Guarded (Attended tasks) (Guarded Admissible Step)) s fs t)
    (many : rank tasks tsk s < fs.countP Event.isTick) :
    ∃ gs hs m, fs = gs ++ hs ∧
      Steps (Guarded (Attended tasks) (Guarded Admissible Step)) s gs m ∧ m.current = tsk := by
  obtain ⟨balanced, slice⟩ := @invariant_of_step _ _ _
    (fun s => (∃ xs, Balanced s xs) ∧ s.cpuExecTaskJiffies ≤ 12) step_slice _ _ _ before
    ⟨⟨[], schedule_init_balanced boot⟩, by simp [scheduleInit]⟩
  exact goal_of_rank step_rank run ⟨balanced, waits, slice⟩ many

/- The steps of the tasks, with schedule at the end of an interrupt that calls for it. -/
def nextAttended (tasks : Finset Nat) (s : Schedule) (e : Event) : Option Schedule :=
  if s.current ∈ tasks ∧ (e = .tick →
      s.needSchedule s.current = false ∧ (s.vrunTime s.current).toInt + 2 < 2 ^ 63) then next s e
  else none

theorem steps_of_attended {tasks : Finset Nat} {s t : Schedule} {es : List Event}
    (balanced : ∃ xs, Balanced s xs) (ran : exec (nextAttended tasks) s es = some t) :
    Steps (Guarded (Attended tasks) (Guarded Admissible Step)) s es t := by
  refine steps_of_exec_within (fun s e t known step => step_balanced s e t known step.1)
    (fun s e t known taken => ?_) balanced ran
  obtain ⟨attended, taken⟩ := Option.ite_none_right_eq_some.mp taken
  exact ⟨next_step s e t known taken, attended⟩

/- Task 2 is later than task 3 and has three ticks of its slice left. -/
def begun : List Event :=
  [.wakeup 2, .tick, .tick, .schedule, .wakeup 3, .schedule, .tick, .schedule, .tick, .tick]

def spent : List Event :=
  [.tick, .tick, .tick, .schedule, .tick, .tick, .tick, .schedule, .tick]

theorem waiting_runs_begun : ∃ s t, exec next (scheduleInit bootTask) begun = some s ∧
    s.current = 2 ∧ exec (nextAttended {2, 3}) s spent = some t ∧
    ∃ gs hs m, spent = gs ++ hs ∧
      Steps (Guarded (Attended {2, 3}) (Guarded Admissible Step)) s gs m ∧ m.current = 3 := by
  have ran : ((exec next (scheduleInit bootTask) begun).bind fun s =>
      (exec (nextAttended {2, 3}) s spent).map fun _ =>
        (s.current, s.initTask, s.state 3, rank {2, 3} 3 s)) = some (2, 1, taskRunning, 6) := by
    decide +kernel
  obtain ⟨s, reached, ran⟩ := Option.bind_eq_some_iff.mp ran
  obtain ⟨t, run, facts⟩ := Option.map_eq_some_iff.mp ran
  simp only [Prod.mk.injEq] at facts
  obtain ⟨other, idle, runnable, long⟩ := facts
  have before := steps_of_next ⟨[], schedule_init_balanced boot_task_booting⟩ reached
  have balanced := reached_balanced boot_task_booting before
  have waits : Waiting s 3 :=
    ⟨by decide, by rw [other]; decide, by rw [idle]; decide, runnable⟩
  have many : rank {2, 3} 3 s < spent.countP Event.isTick := by
    rw [long]
    decide +kernel
  exact ⟨s, t, reached, other, run,
    waiting_runs boot_task_booting before waits (steps_of_attended balanced run) many⟩

end RunQueue

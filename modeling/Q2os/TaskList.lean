import Q2os.Process

/- The ring of all tasks through next. do_fork splices behind init_task_union.task; sys_wait4
   unlinks through the predecessor it found before it slept. -/
namespace TaskList
open CircularList Process Run

/-- The ring from init_task_union.task holds exactly the forked and not yet freed tasks. -/
def Intact (k : Kernel) : Prop :=
  ∃ tasks, Cycle (nextTask k) initTask tasks ∧ ∀ a, a ∈ tasks ↔ k.live a = true

def Linkable (k : Kernel) (a : Nat) : Prop := a = initTask ∨ k.live a = true

instance (k : Kernel) (a : Nat) : Decidable (Linkable k a) :=
  inferInstanceAs (Decidable (_ ∨ _))

/- What the store tsk->next = child->next finds: the predecessor is still one, or, when the
   child is gone already, the store changes nothing on the ring. -/
def PredecessorStands (k : Kernel) (tsk child : Nat) : Prop :=
  if k.live child = true then Linkable k tsk ∧ nextTask k tsk = child
  else Linkable k tsk → nextTask k tsk = nextTask k child

instance (k : Kernel) (tsk child : Nat) : Decidable (PredecessorStands k tsk child) :=
  inferInstanceAs (Decidable (ite _ _ _))

/- Memory of a freed task that is still scheduled or asleep is not handed out again. -/
def Unused (k : Kernel) (a : Nat) : Prop :=
  a ≠ k.current ∧ a ∉ k.runQueue ∧ k.waiting a = none

def Allowed (k : Kernel) : Event → Prop
  | .fork tsk => Unused k tsk
  | .resume _ tsk child => PredecessorStands k tsk child
  | _ => True

instance (k : Kernel) (a : Nat) : Decidable (Unused k a) :=
  inferInstanceAs (Decidable (_ ∧ _ ∧ _))

instance (k : Kernel) (e : Event) : Decidable (Allowed k e) := by
  cases e <;> simp only [Allowed] <;> infer_instance

theorem intact_congr {k k' : Kernel} (next : nextTask k' = nextTask k) (live : k'.live = k.live)
    (intact : Intact k) : Intact k' := by
  obtain ⟨tasks, cycle, held⟩ := intact
  exact ⟨tasks, next ▸ cycle, fun a => live ▸ held a⟩

theorem mem_ring_iff {k : Kernel} {tasks : List Nat}
    (held : ∀ a, a ∈ tasks ↔ k.live a = true) (a : Nat) :
    a ∈ initTask :: tasks ↔ Linkable k a := by
  rw [List.mem_cons, held, Linkable]

theorem boot_intact : Intact boot :=
  ⟨[], ⟨rfl, by simp⟩, by simp [boot]⟩

theorem fork_intact {k : Kernel} {tsk : Nat} (intact : Intact k) (fresh : k.live tsk = false)
    (user : tsk ≠ initTask) : Intact (doFork k tsk) := by
  obtain ⟨tasks, cycle, held⟩ := intact
  have apart : tsk ∉ initTask :: tasks := by
    rw [mem_ring_iff held, Linkable]
    simp [fresh, user]
  refine ⟨tsk :: tasks, next_do_fork k user ▸ cycle_push cycle apart, ?_⟩
  intro a
  rw [List.mem_cons, held, live_do_fork]
  by_cases same : a = tsk <;> simp [same]

theorem reap_next_off {k : Kernel} {tsk child a : Nat} (other : a ≠ tsk) :
    nextTask (reap k tsk child) a = nextTask k a := by
  rw [next_reap, Function.update_of_ne other]

theorem reap_intact_of_live {k : Kernel} {tsk child : Nat} (intact : Intact k)
    (live : k.live child = true) (link : Linkable k tsk) (before : nextTask k tsk = child) :
    Intact (reap k tsk child) := by
  obtain ⟨tasks, cycle, held⟩ := intact
  obtain ⟨rest, cut, kept⟩ :=
    cycle_unlink cycle ((held child).mpr live) ((mem_ring_iff held tsk).mpr link) before
  refine ⟨rest, next_reap k tsk child ▸ cut, ?_⟩
  intro a
  rw [kept, held, live_reap]
  by_cases same : a = child <;> simp [same]

theorem reap_intact_of_gone {k : Kernel} {tsk child : Nat} (intact : Intact k)
    (gone : k.live child = false)
    (still : Linkable k tsk → nextTask k tsk = nextTask k child) :
    Intact (reap k tsk child) := by
  obtain ⟨tasks, cycle, held⟩ := intact
  have live : (reap k tsk child).live = k.live := by
    rw [live_reap, ← gone, Function.update_eq_self]
  refine ⟨tasks, cycle_congr ?_ cycle, fun a => live ▸ held a⟩
  intro a member
  by_cases same : a = tsk
  · subst same
    rw [next_reap, Function.update_self]
    exact (still ((mem_ring_iff held a).mp member)).symm
  · exact reap_next_off same

/- Freeing a listed child through anything but its predecessor leaves it on the ring. -/
theorem predecessor_of_reap_live {k : Kernel} {tsk child : Nat} (intact : Intact k)
    (live : k.live child = true) (after : Intact (reap k tsk child)) :
    Linkable k tsk ∧ nextTask k tsk = child := by
  by_contra moved
  obtain ⟨tasks, cycle, held⟩ := intact
  obtain ⟨rest, cut, kept⟩ := after
  have user : child ≠ initTask := by
    rintro rfl
    exact (List.nodup_cons.mp cycle.nodup).1 ((held _).mpr live)
  obtain ⟨before, inside, points⟩ :=
    cycle_previous cycle (List.mem_cons_of_mem initTask ((held child).mpr live))
  have link : Linkable k before := (mem_ring_iff held before).mp inside
  have other : before ≠ tsk := fun same => moved ⟨same ▸ link, same ▸ points⟩
  have gone : ¬ Linkable (reap k tsk child) child := by
    simp [Linkable, user]
  have loop : before ≠ child := by
    rintro rfl
    exact cycle_no_loop cycle ((held before).mpr live) points
  have stays : Linkable (reap k tsk child) before := by
    rcases link with at_init | alive
    · exact Or.inl at_init
    · right
      rw [live_reap, Function.update_of_ne loop, alive]
  have reached := cycle_next_mem cut ((mem_ring_iff kept before).mpr stays)
  rw [reap_next_off other, points] at reached
  exact gone ((mem_ring_iff kept child).mp reached)

/- Both rings permute the same nodes and differ at tsk at most, so not even there. -/
theorem predecessor_of_reap_gone {k : Kernel} {tsk child : Nat} (intact : Intact k)
    (gone : k.live child = false) (after : Intact (reap k tsk child)) (link : Linkable k tsk) :
    nextTask k tsk = nextTask k child := by
  obtain ⟨tasks, cycle, held⟩ := intact
  obtain ⟨rest, cut, kept⟩ := after
  have live : (reap k tsk child).live = k.live := by
    rw [live_reap, ← gone, Function.update_eq_self]
  have same_ring : ∀ a, a ∈ initTask :: rest ↔ a ∈ initTask :: tasks := by
    intro a
    rw [mem_ring_iff kept, mem_ring_iff held, Linkable, Linkable, live]
  have inside := (mem_ring_iff held tsk).mpr link
  obtain ⟨source, at_source, points⟩ :=
    cycle_previous cut ((same_ring _).mpr (cycle_next_mem cycle inside))
  have same : source = tsk := by
    by_contra other
    rw [reap_next_off other] at points
    exact other (cycle_injective cycle ((same_ring source).mp at_source) inside points)
  subst same
  rw [next_reap, Function.update_self] at points
  exact points.symm

theorem reap_intact_iff {k : Kernel} (intact : Intact k) (tsk child : Nat) :
    Intact (reap k tsk child) ↔ PredecessorStands k tsk child := by
  unfold PredecessorStands
  by_cases live : k.live child = true
  · rw [if_pos live]
    exact ⟨predecessor_of_reap_live intact live,
      fun stands => reap_intact_of_live intact live stands.1 stands.2⟩
  · rw [if_neg live]
    have gone : k.live child = false := by simpa using live
    exact ⟨predecessor_of_reap_gone intact gone, reap_intact_of_gone intact gone⟩

theorem search_child_found {k : Kernel} {tasks : List Nat} {pid fuel a tsk child : Nat}
    (found : searchChild k pid fuel a = some (some (tsk, child)))
    (cycle : Cycle (nextTask k) initTask tasks) (inside : a ∈ initTask :: tasks) :
    tsk ∈ initTask :: tasks ∧ nextTask k tsk = child ∧ child ∈ tasks ∧ (k.task child).pid = pid := by
  induction fuel generalizing a with
  | zero => simp [searchChild] at found
  | succ fuel ih =>
    unfold searchChild at found
    by_cases ended : nextTask k a = initTask
    · simp [ended] at found
    have reached := cycle_next_mem cycle inside
    by_cases hit : (k.task (nextTask k a)).pid = pid
    · simp only [ended, hit, ↓reduceIte, Option.some.injEq, Prod.mk.injEq] at found
      obtain ⟨rfl, rfl⟩ := found
      exact ⟨inside, rfl, (List.mem_cons.mp reached).resolve_left ended, hit⟩
    · simp only [ended, hit, ↓reduceIte] at found
      exact ih found reached

theorem finds_child {k : Kernel} {tasks : List Nat} {pid tsk child : Nat}
    (found : Finds k pid tsk child) (cycle : Cycle (nextTask k) initTask tasks) :
    tsk ∈ initTask :: tasks ∧ nextTask k tsk = child ∧ child ∈ tasks ∧ (k.task child).pid = pid := by
  obtain ⟨fuel, found⟩ := found
  exact search_child_found found cycle List.mem_cons_self

/- No step but the resumption of a sleeping sys_wait4 can break the list. -/
theorem step_intact {k k' : Kernel} {e : Event} (step : Step k e k') (intact : Intact k)
    (stands : ∀ pid tsk child, e = .resume pid tsk child → PredecessorStands k tsk child) :
    Intact k' := by
  cases step with
  | fork tsk ready fresh user => exact fork_intact intact fresh user
  | exit code user ready => exact intact_congr (next_do_exit k code) (live_do_exit k code) intact
  | wait pid tsk child ready user found dead =>
    obtain ⟨tasks, cycle, held⟩ := id intact
    obtain ⟨inside, points, listed, -⟩ := finds_child found cycle
    exact reap_intact_of_live intact ((held child).mp listed) ((mem_ring_iff held tsk).mp inside)
      points
  | sleep pid tsk child ready user found alive =>
    exact intact_congr (next_sleep_for_child k _) (live_sleep_for_child k _) intact
  | resume pid tsk child awake locals =>
    exact (reap_intact_iff (k := { k with waiting := Function.update k.waiting k.current none })
      intact tsk child).mpr (stands pid tsk child rfl)
  | switch next queued => exact intact_congr (next_switch_to k next) (live_switch_to k next) intact
  | idle empty => exact intact_congr (next_switch_to k _) (live_switch_to k _) intact
  | forkFails ready => exact intact
  | noChild pid fuel options ready user absent => exact intact
  | badOptions pid tsk child options ready user found set => exact intact
  | stay awake => exact intact

/- One sys_wait4 that resumes, seen alone: the condition is exact. -/
theorem resume_intact_iff {k k' : Kernel} {pid tsk child : Nat}
    (step : Step k (.resume pid tsk child) k') (intact : Intact k) :
    Intact k' ↔ PredecessorStands k tsk child := by
  cases step with
  | resume _ _ _ awake locals =>
    exact reap_intact_iff (k := { k with waiting := Function.update k.waiting k.current none })
      intact tsk child

theorem guarded_step_intact (k : Kernel) (e : Event) (k' : Kernel) (intact : Intact k)
    (step : Guarded Allowed Step k e k') : Intact k' :=
  step_intact step.1 intact (by rintro pid tsk child rfl; exact step.2)

/-- As long as every resumed sys_wait4 still finds the predecessor it remembers in place, the
list is intact in every state. -/
theorem task_list_intact (k : Kernel) (es : List Event)
    (run : Steps (Guarded Allowed Step) boot es k) : Intact k :=
  invariant_of_step guarded_step_intact run boot_intact

theorem task_list_intact_one_child : ∃ k, k.live 2 = false ∧ Intact k := by
  obtain ⟨k, run, freed⟩ : ∃ k, Steps (Guarded Allowed Step) boot
      [.fork 1, .schedule (some 1), .fork 2, .sleep 1 0 2, .schedule (some 2), .exit 7,
        .schedule (some 1), .resume 1 0 2] k ∧ k.live 2 = false :=
    ⟨_,
      .cons ⟨.fork _ 1 ⟨rfl, rfl⟩ rfl (by decide), by decide⟩ <|
      .cons ⟨.switch _ 1 (by decide), trivial⟩ <|
      .cons ⟨.fork _ 2 ⟨rfl, rfl⟩ rfl (by decide), by decide⟩ <|
      .cons ⟨.sleep _ 1 0 2 ⟨rfl, rfl⟩ (by decide) ⟨1, rfl⟩ (by decide), trivial⟩ <|
      .cons ⟨.switch _ 2 (by decide), trivial⟩ <|
      .cons ⟨.exit _ 7 (by decide) (.inl ⟨rfl, rfl⟩), trivial⟩ <|
      .cons ⟨.switch _ 1 (by decide), trivial⟩ <|
      .cons ⟨.resume _ 1 0 2 rfl rfl, by decide⟩ <| .nil _,
      rfl⟩
  exact ⟨k, freed, task_list_intact k _ run⟩

/- A fork between the search and the wakeup: the sleeper remembers init as the predecessor
   of 2, the child forks 3 in between, and unlinking 2 drops 3 as well. -/
theorem task_list_loses_a_fork :
    ∃ es k, Steps Step boot es k ∧ k.live 3 = true ∧ ¬ Intact k := by
  refine ⟨[.fork 1, .schedule (some 1), .fork 2, .sleep 1 0 2, .schedule (some 2), .fork 3,
      .exit 7, .schedule (some 1), .resume 1 0 2], _,
    .cons (.fork _ 1 ⟨rfl, rfl⟩ rfl (by decide)) <|
    .cons (.switch _ 1 (by decide)) <|
    .cons (.fork _ 2 ⟨rfl, rfl⟩ rfl (by decide)) <|
    .cons (.sleep _ 1 0 2 ⟨rfl, rfl⟩ (by decide) ⟨1, rfl⟩ (by decide)) <|
    .cons (.switch _ 2 (by decide)) <|
    .cons (.fork _ 3 ⟨rfl, rfl⟩ rfl (by decide)) <|
    .cons (.exit _ 7 (by decide) (.inl ⟨rfl, rfl⟩)) <|
    .cons (.switch _ 1 (by decide)) <|
    .cons (.resume _ 1 0 2 rfl rfl) <| .nil _, rfl, ?_⟩
  rintro ⟨tasks, cycle, held⟩
  have short : tasks = [1] := cycle_unique cycle ⟨⟨rfl, rfl⟩, by decide⟩
  have lost := (held 3).mpr rfl
  rw [short] at lost
  exact absurd lost (by decide)

end TaskList

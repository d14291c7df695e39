import Q2os.DiskService

/- Interrupts that carry DISK_STATUS_ERROR: the handlers print the error register and count
   the sector like any other, and IDE_transfer has nothing to tell a failure by. -/
namespace DiskErrors
open Disk Run RunQueue

def finishTransfer (cmd : Nat) : Int := if cmd = ataReadCmd ∨ cmd = ataWriteCmd then 1 else 0

/- read_handler where the status has the error bit. -/
def readError (fuel : Nat) (k : Disk.Kernel) (a : Nat) : Option Disk.Kernel :=
  let k := setNode k a (pass (k.node a))
  if (k.node a).count ≠ 0 then some (setNode k a (advance (k.node a)))
  else endRequest fuel k a

/- write_handler does the same with and without the error bit, once the drive requests data. -/
def errorHandler (fuel : Nat) (k : Disk.Kernel) : Option Disk.Kernel :=
  k.inUsing.bind fun a =>
    match (k.node a).endHandler with
    | .read_handler => readError fuel k a
    | .write_handler => writeHandler fuel k a

def SectorsLeft (k : Disk.Kernel) : Prop :=
  ∃ a, k.inUsing = some a ∧ (pass (k.node a)).count ≠ 0

instance (k : Disk.Kernel) : Decidable (SectorsLeft k) :=
  match used : k.inUsing with
  | none => isFalse (by rintro ⟨a, same, _⟩; rw [used] at same; cases same)
  | some a =>
    decidable_of_iff ((pass (k.node a)).count ≠ 0)
      ⟨fun left => ⟨a, used, left⟩, by
        rintro ⟨b, same, left⟩
        rw [used] at same
        cases same
        exact left⟩

/- write_handler waits for DISK_STATUS_REQ before the next sector. -/
def Spins (k : Disk.Kernel) (requested : Bool) : Prop :=
  SectorsLeft k ∧ requested = false ∧
    ∀ a, k.inUsing = some a → (k.node a).endHandler = .write_handler

/- aborted: the drive raises no further interrupt for the command in it. hung: a handler spins
   for a drive that requests nothing. calls has the IDE_transfer calls that have not returned,
   returned those that have, with their values. -/
structure System where
  kernel : Disk.Kernel
  aborted : Bool
  hung : Bool
  calls : List Request
  returned : List (Request × Int)

def start (k : Disk.Kernel) : System := ⟨boot k, false, false, [], []⟩

/- An error comes with what the drive says about the next sector of a write. -/
inductive Event where
  | disk (e : Disk.Event)
  | error (requested : Bool)
  | returns (r : Request)

def System.moved (s : System) (k : Disk.Kernel) : System :=
  { s with kernel := k, calls := s.calls ++ k.submitted.drop s.kernel.submitted.length }

inductive Step : System → Event → System → Prop where
  | disk (s : System) (e : Disk.Event) (k : Disk.Kernel) (alive : s.hung = false)
      (step : Disk.Step s.kernel e k) : Step s (.disk e) (s.moved k)
  | error (s : System) (requested : Bool) (k : Disk.Kernel) (fuel : Nat) (alive : s.hung = false)
      (goes_on : ¬ Spins s.kernel requested)
      (returned : errorHandler fuel (raise s.kernel) = some k) :
      Step s (.error requested) { s with kernel := k, aborted := SectorsLeft s.kernel }
  | spins (s : System) (requested : Bool) (alive : s.hung = false)
      (waits : Spins s.kernel requested) :
      Step s (.error requested) { s with hung := true }
  | returns (s : System) (r : Request) (before after : List Request) (alive : s.hung = false)
      (calling : s.calls = before ++ r :: after) (running : s.kernel.sched.current = r.tsk) :
      Step s (.returns r) { s with
        calls := before ++ after, returned := s.returned ++ [(r, finishTransfer r.cmd)] }

def Admissible (s : System) : Event → Prop
  | .disk e => Disk.Admissible s.kernel e ∧ (e = .interrupt → s.aborted = false)
  | .error _ => s.kernel.drive.raised < sectors s.kernel.drive.command ∧ s.aborted = false
  | .returns _ => True

/-- After the error in s some run finishes every request, and the call for the request that
    failed has returned 0 in it. -/
def Handled (s s' : System) : Prop :=
  ∃ es t a r, Steps (Guarded Admissible Step) s' es t ∧ s.kernel.inUsing = some a ∧
    r ∈ s.calls ∧ r.tsk = (s.kernel.node a).tsk ∧ (r, 0) ∈ t.returned ∧
    t.kernel.woken = t.kernel.submitted.map Request.tsk

/-- Nothing more is told to the drive and no task is woken. -/
def Wedged (s s' : System) : Prop :=
  ∀ es t, Steps (Guarded Admissible Step) s' es t →
    t.kernel.issued = s.kernel.issued ∧ t.kernel.woken = s.kernel.woken

structure Ones (s : System) : Prop where
  submitted : ∀ r ∈ s.kernel.submitted, r.cmd = ataReadCmd ∨ r.cmd = ataWriteCmd
  calls : ∀ r ∈ s.calls, r.cmd = ataReadCmd ∨ r.cmd = ataWriteCmd
  returned : ∀ p ∈ s.returned, p.2 = 1

theorem start_ones (k : Disk.Kernel) : Ones (start k) :=
  ⟨fun _ member => absurd member List.not_mem_nil, fun _ member => absurd member List.not_mem_nil,
    fun _ member => absurd member List.not_mem_nil⟩

theorem cmd_out_submitted (k : Disk.Kernel) : (cmdOut k).submitted = k.submitted := by
  simp only [cmdOut]
  split
  · rfl
  · rfl

theorem end_request_submitted {k k' : Disk.Kernel} {a fuel : Nat}
    (returned : endRequest fuel k a = some k') : k'.submitted = k.submitted := by
  obtain ⟨sched, _, made⟩ := Option.map_eq_some_iff.mp returned
  rw [← made]
  dsimp only
  split
  · exact cmd_out_submitted _
  · rfl

theorem read_handler_submitted {k k' : Disk.Kernel} {a fuel : Nat}
    (returned : readHandler fuel k a = some k') : k'.submitted = k.submitted := by
  simp only [readHandler] at returned
  split at returned
  · rw [← Option.some.inj returned]
    rfl
  · have ended := end_request_submitted returned
    exact ended

theorem read_error_submitted {k k' : Disk.Kernel} {a fuel : Nat}
    (returned : readError fuel k a = some k') : k'.submitted = k.submitted := by
  simp only [readError] at returned
  split at returned
  · rw [← Option.some.inj returned]
    rfl
  · have ended := end_request_submitted returned
    exact ended

theorem write_handler_submitted {k k' : Disk.Kernel} {a fuel : Nat}
    (returned : writeHandler fuel k a = some k') : k'.submitted = k.submitted := by
  simp only [writeHandler] at returned
  split at returned
  · rw [← Option.some.inj returned]
    rfl
  · have ended := end_request_submitted returned
    exact ended

theorem disk_handler_submitted {k k' : Disk.Kernel} {fuel : Nat}
    (returned : diskHandler fuel k = some k') : k'.submitted = k.submitted := by
  obtain ⟨a, _, handled⟩ := Option.bind_eq_some_iff.mp returned
  split at handled
  · exact read_handler_submitted handled
  · exact write_handler_submitted handled

theorem error_handler_submitted {k k' : Disk.Kernel} {fuel : Nat}
    (returned : errorHandler fuel k = some k') : k'.submitted = k.submitted := by
  obtain ⟨a, _, handled⟩ := Option.bind_eq_some_iff.mp returned
  split at handled
  · exact read_error_submitted handled
  · exact write_handler_submitted handled

theorem submit_submitted (k : Disk.Kernel) (a : Nat) : (submit k a).submitted = k.submitted := by
  simp only [submit]
  split
  · exact cmd_out_submitted _
  · rfl

theorem transfer_submitted {k k' : Disk.Kernel} {a cmd blocks count buffer fuel : Nat}
    (returned : IDETransfer fuel k a cmd blocks count buffer = some k') :
    k'.submitted = k.submitted ∨
      ∃ r, (r.cmd = ataReadCmd ∨ r.cmd = ataWriteCmd) ∧ k'.submitted = k.submitted ++ [r] := by
  unfold IDETransfer at returned
  split at returned
  · rename_i known
    obtain ⟨sched, _, made⟩ := Option.map_eq_some_iff.mp returned
    refine Or.inr ⟨⟨k.sched.current, cmd, blocks, count, buffer⟩, known, ?_⟩
    rw [← made]
    exact submit_submitted _ a
  · rw [← Option.some.inj returned]
    exact Or.inl rfl

theorem disk_step_submitted {k k' : Disk.Kernel} {e : Disk.Event} (step : Disk.Step k e k') :
    k'.submitted = k.submitted ∨
      ∃ r, (r.cmd = ataReadCmd ∨ r.cmd = ataWriteCmd) ∧ k'.submitted = k.submitted ++ [r] := by
  cases step with
  | transfer k' a cmd blocks count buffer fuel returned => exact transfer_submitted returned
  | interrupt k' fuel returned =>
    have handled := disk_handler_submitted returned
    exact Or.inl handled
  | sched e sched step => exact Or.inl rfl
  | store memory => exact Or.inl rfl

theorem finishTransfer_one {r : Request} (known : r.cmd = ataReadCmd ∨ r.cmd = ataWriteCmd) :
    finishTransfer r.cmd = 1 :=
  if_pos known

theorem step_ones (s : System) (e : Event) (s' : System) (ones : Ones s)
    (step : Guarded Admissible Step s e s') : Ones s' := by
  obtain ⟨step, _⟩ := step
  cases step with
  | disk e k alive step =>
    rcases disk_step_submitted step with same | ⟨r, known, more⟩
    · refine ⟨same ▸ ones.submitted, ?_, ones.returned⟩
      intro q member
      rw [System.moved, same, List.drop_length, List.append_nil] at member
      exact ones.calls q member
    · have one_more : ∀ rs : List Request,
          (∀ q ∈ rs, q.cmd = ataReadCmd ∨ q.cmd = ataWriteCmd) →
          ∀ q ∈ rs ++ [r], q.cmd = ataReadCmd ∨ q.cmd = ataWriteCmd := by
        intro rs all q member
        rcases List.mem_append.mp member with old | new
        · exact all q old
        · rw [List.mem_singleton.mp new]
          exact known
      refine ⟨more ▸ one_more _ ones.submitted, ?_, ones.returned⟩
      intro q member
      rw [System.moved, more, List.drop_left] at member
      exact one_more _ ones.calls q member
  | error requested k fuel alive goes_on returned =>
    have handled := error_handler_submitted returned
    have same : k.submitted = s.kernel.submitted := handled
    exact ⟨same ▸ ones.submitted, ones.calls, ones.returned⟩
  | spins requested alive waits => exact ⟨ones.submitted, ones.calls, ones.returned⟩
  | returns r before after alive calling running =>
    have known := ones.calls r (by rw [calling]; simp)
    refine ⟨ones.submitted, fun q member => ones.calls q ?_, fun p member => ?_⟩
    · rw [calling]
      rcases List.mem_append.mp member with first | last
      · exact List.mem_append_left _ first
      · exact List.mem_append_right _ (List.mem_cons_of_mem _ last)
    · rcases List.mem_append.mp member with old | new
      · exact ones.returned p old
      · rw [List.mem_singleton.mp new]
        exact finishTransfer_one known

/- What the error leaves where sectors are left: the request stays in use, and no interrupt
   comes for it. -/
structure Stuck (s t : System) : Prop where
  silent : t.hung = true ∨ t.aborted = true
  inUsing : t.kernel.inUsing ≠ none
  issued : t.kernel.issued = s.kernel.issued
  woken : t.kernel.woken = s.kernel.woken

theorem transfer_queues {k k' : Disk.Kernel} {a cmd blocks count buffer fuel : Nat}
    (busy : k.inUsing ≠ none) (returned : IDETransfer fuel k a cmd blocks count buffer = some k') :
    k'.inUsing = k.inUsing ∧ k'.issued = k.issued := by
  unfold IDETransfer at returned
  split at returned
  · obtain ⟨sched, _, made⟩ := Option.map_eq_some_iff.mp returned
    rw [← made]
    simp only [submit]
    split
    · rename_i idle
      exact absurd idle busy
    · exact ⟨rfl, rfl⟩
  · rw [← Option.some.inj returned]
    exact ⟨rfl, rfl⟩

theorem step_stuck {s : System} (t : System) (e : Event) (t' : System) (stuck : Stuck s t)
    (step : Guarded Admissible Step t e t') : Stuck s t' := by
  obtain ⟨step, allowed⟩ := step
  have aborted : t.hung = false → t.aborted = true := by
    intro alive
    rcases stuck.silent with hung | aborted
    · rw [alive] at hung
      cases hung
    · exact aborted
  cases step with
  | disk e k alive step =>
    cases step with
    | transfer k' a cmd blocks count buffer fuel returned =>
      obtain ⟨same, issued⟩ := transfer_queues stuck.inUsing returned
      exact ⟨stuck.silent, same ▸ stuck.inUsing, issued.trans stuck.issued,
        (transfer_woken returned).trans stuck.woken⟩
    | interrupt k' fuel returned =>
      have silent := aborted alive
      rw [allowed.2 rfl] at silent
      cases silent
    | sched e sched step => exact ⟨stuck.silent, stuck.inUsing, stuck.issued, stuck.woken⟩
    | store memory => exact ⟨stuck.silent, stuck.inUsing, stuck.issued, stuck.woken⟩
  | error requested k fuel alive goes_on returned =>
    have silent := aborted alive
    rw [allowed.2] at silent
    cases silent
  | spins requested alive waits =>
    exact ⟨Or.inl rfl, stuck.inUsing, stuck.issued, stuck.woken⟩
  | returns r before after alive calling running =>
    exact ⟨stuck.silent, stuck.inUsing, stuck.issued, stuck.woken⟩

theorem error_left {k k' : Disk.Kernel} {fuel : Nat} (left : SectorsLeft k)
    (returned : errorHandler fuel (raise k) = some k') :
    k'.inUsing ≠ none ∧ k'.issued = k.issued ∧ k'.woken = k.woken := by
  obtain ⟨a, used, more⟩ := left
  obtain ⟨b, same, handled⟩ := Option.bind_eq_some_iff.mp returned
  have here : b = a := by
    have both : k.inUsing = some b := same
    rw [used] at both
    exact (Option.some.inj both).symm
  have counted : ((setNode (raise k) a (pass ((raise k).node a))).node a).count ≠ 0 := by
    rw [setNode_node]
    exact more
  have busy : k.inUsing ≠ none := by
    rw [used]
    exact Option.some_ne_none a
  rw [here] at handled
  split at handled
  · simp only [readError, counted, ne_eq, not_false_eq_true, ↓reduceIte] at handled
    rw [← Option.some.inj handled]
    exact ⟨busy, rfl, rfl⟩
  · simp only [writeHandler, counted, ne_eq, not_false_eq_true, ↓reduceIte] at handled
    rw [← Option.some.inj handled]
    exact ⟨busy, rfl, rfl⟩

theorem error_stuck {s s' : System} {requested : Bool} (left : SectorsLeft s.kernel)
    (failed : Step s (.error requested) s') : Stuck s s' := by
  cases failed with
  | error _ k fuel alive goes_on returned =>
    obtain ⟨used, issued, woken⟩ := error_left left returned
    exact ⟨Or.inr (decide_eq_true left), used, issued, woken⟩
  | spins _ alive waits =>
    obtain ⟨a, used, _⟩ := left
    exact ⟨Or.inl rfl, by rw [used]; exact Option.some_ne_none a, rfl, rfl⟩

theorem never_zero {s t : System} {es : List Event} (ones : Ones s)
    (run : Steps (Guarded Admissible Step) s es t) (r : Request) : (r, 0) ∉ t.returned := by
  intro member
  have one := (invariant_of_step step_ones run ones).returned (r, 0) member
  cases one

theorem stuck_wedged {s s' : System} (stuck : Stuck s s') : Wedged s s' := by
  intro es t run
  have last := @invariant_of_step _ _ _ (Stuck s) step_stuck _ _ _ run stuck
  exact ⟨last.issued, last.woken⟩

/-- Whatever run an error ends, the call that failed never returns 0; and unless the sector was
    the last of its request, nothing behind it is ever issued or completed. -/
theorem errors_lost {k : Disk.Kernel} {s s' : System} {es : List Event} {requested : Bool}
    (run : Steps (Guarded Admissible Step) (start k) es s)
    (failed : Guarded Admissible Step s (.error requested) s') :
    ¬ Handled s s' ∧ (SectorsLeft s.kernel → Wedged s s') := by
  have ones := invariant_of_step step_ones run (start_ones k)
  refine ⟨?_, fun left => stuck_wedged (error_stuck left failed.1)⟩
  rintro ⟨es', t, a, r, later, _, _, _, reported, _⟩
  exact never_zero (step_ones _ _ _ ones failed) later r reported

def readingTwo : Disk.Kernel := (IDETransfer 1 (withSched switched) 7 0x24 5 2 1000).getD bootKernel

def firstFailed : Disk.Kernel := (errorHandler 1 (raise readingTwo)).getD bootKernel

theorem first_of_two_fails : ∃ s s', SectorsLeft s.kernel ∧
    Steps (Guarded Admissible Step) (start bootKernel)
      [.disk (.sched (.wakeup 2)), .disk (.sched .tick), .disk (.sched .schedule),
        .disk (.transfer 7 0x24 5 2 1000)] s ∧
    Guarded Admissible Step s (.error false) s' := by
  have left : SectorsLeft readingTwo := ⟨7, rfl, by decide⟩
  have reads : ¬ Spins readingTwo false := by
    rintro ⟨_, _, writes⟩
    cases writes 7 rfl
  refine ⟨⟨readingTwo, false, false, [⟨2, 0x24, 5, 2, 1000⟩], []⟩, _, left, ?_,
    .error _ false firstFailed 1 rfl reads rfl,
    (by decide : readingTwo.drive.raised < sectors readingTwo.drive.command), rfl⟩
  exact
    .cons ⟨.disk _ _ (withSched made) rfl (.sched _ (.wakeup 2) made (.wakeup _ made 2 1 rfl)),
      ⟨⟨by decide, by decide,
        by simp [inQueue_iff (schedule_init_balanced boot_task_booting).queue.ring, start, boot,
          diskInit, bootKernel]⟩, by simp [start, boot, diskInit]⟩, by simp⟩
    (.cons ⟨.disk _ _ (withSched (tick made)) rfl
        (.sched (withSched made) .tick (tick made) (.tick made)),
        ⟨trivial, by simp [System.moved, withSched, boot, diskInit]⟩, by simp⟩
    (.cons ⟨.disk _ _ (withSched switched) rfl
        (.sched (withSched (tick made)) .schedule switched (.schedule _ switched 1 rfl)),
        ⟨trivial, by simp [System.moved, withSched, boot, diskInit]⟩, by simp⟩
    (.cons ⟨.disk _ _ readingTwo rfl
        (.transfer (withSched switched) readingTwo 7 0x24 5 2 1000 1 rfl),
        ⟨by decide, by simp [System.moved, withSched, boot, diskInit], no_requests,
          ⟨by decide, by decide, by decide⟩, by decide⟩, by simp⟩ (.nil _))))

theorem errors_lost_first_of_two :
    ∃ s s', SectorsLeft s.kernel ∧ ¬ Handled s s' ∧ Wedged s s' := by
  obtain ⟨s, s', left, run, failed⟩ := first_of_two_fails
  obtain ⟨lost, wedged⟩ := errors_lost run failed
  exact ⟨s, s', left, lost, wedged left⟩

theorem error_unreported : ∃ es s s', Steps (Guarded Admissible Step) (start bootKernel) es s ∧
    Guarded Admissible Step s (.error false) s' ∧ ¬ Handled s s' ∧ Wedged s s' := by
  obtain ⟨s, s', left, run, failed⟩ := first_of_two_fails
  have ones := invariant_of_step step_ones run (start_ones bootKernel)
  refine ⟨_, s, s', run, failed, ?_, stuck_wedged (error_stuck left failed.1)⟩
  rintro ⟨es, t, a, r, later, _, _, _, reported, _⟩
  exact never_zero (step_ones _ _ _ ones failed) later r reported

end DiskErrors

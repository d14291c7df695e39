import Q2os.DiskService

/- The disk as its callers see it: each transfer happens at once, in the order of the calls,
   whatever the queue and the drive make of them. -/
namespace AtomicDisk
open ByteMemory Run Disk

/- A device without a queue: its sectors, and the calls that have not returned yet, each with the
   sectors that it is to find. -/
structure Device where
  platter : Memory
  calls : List (Request × Memory)

namespace Device

def transfer (d : Device) (memory : Memory) (r : Request) : Device where
  platter := if r.cmd = ataReadCmd then d.platter
    else copy memory r.buffer d.platter (512 * r.LBA) (512 * r.count)
  calls := d.calls ++ [(r, fun i => d.platter (512 * r.LBA + i))]

def leave (d : Device) (tsk : Nat) : Device :=
  { d with calls := d.calls.filter fun c => c.1.tsk ≠ tsk }

def after (d : Device) (k : Kernel) : Event → Device
  | .transfer _ cmd blocks count buffer =>
    if cmd = ataReadCmd ∨ cmd = ataWriteCmd then
      (d.leave k.sched.current).transfer k.memory ⟨k.sched.current, cmd, blocks, count, buffer⟩
    else d.leave k.sched.current
  | .store _ => d.leave k.sched.current
  | _ => d

end Device

def InBuffer (r : Request) (a : Nat) : Prop := r.buffer ≤ a ∧ a < r.buffer + 512 * r.count

def InSectors (r : Request) (x : Nat) : Prop := 512 * r.LBA ≤ x ∧ x < 512 * (r.LBA + r.count)

def Apart (r r' : Request) : Prop := ∀ a, InBuffer r a → ¬ InBuffer r' a

/- A buffer is used for one call at a time, and left alone until the call returns. -/
def Careful (d : Device) (k : Kernel) : Event → Prop
  | .transfer _ cmd blocks count buffer => ∀ c ∈ (d.leave k.sched.current).calls,
      Apart c.1 ⟨k.sched.current, cmd, blocks, count, buffer⟩
  | .store memory => ∀ c ∈ (d.leave k.sched.current).calls, ∀ a, InBuffer c.1 a →
      memory a = k.memory a
  | _ => True

def Together (s : Kernel × Device) (e : Event) (s' : Kernel × Device) : Prop :=
  Guarded Admissible Step s.1 e s'.1 ∧ s'.2 = s.2.after s.1 e ∧ Careful s.2 s.1 e

def unserved (k : Kernel) : List Request := k.submitted.drop k.woken.length

/- What a caller finds when it runs again, and what the drive holds. -/
structure Answers (k : Kernel) (d : Device) : Prop where
  reads : ∀ c ∈ d.calls, c.1.tsk = k.sched.current → c.1.cmd = ataReadCmd →
    ∀ i < 512 * c.1.count, k.memory (c.1.buffer + i) = c.2 i
  platter : ∀ x, (∀ r ∈ unserved k, r.cmd ≠ ataReadCmd → ¬ InSectors r x) →
    k.platter x = d.platter x

section moves
variable {r : Request} {n : Nat} {s : Memory × Memory}

theorem copy_extend (source target : Memory) (src dst n size : Nat) :
    copy source (src + n) (copy source src target dst n) (dst + n) size =
      copy source src target dst (n + size) := by
  funext a
  simp only [copy]
  by_cases first : dst ≤ a ∧ a < dst + n
  · have whole : dst ≤ a ∧ a < dst + (n + size) := by omega
    have second : ¬ (dst + n ≤ a ∧ a < dst + n + size) := by omega
    simp [first, second, whole]
  · by_cases second : dst + n ≤ a ∧ a < dst + n + size
    · have whole : dst ≤ a ∧ a < dst + (n + size) := by omega
      have place : src + n + (a - (dst + n)) = src + (a - dst) := by omega
      simp only [second, whole, and_self, ↓reduceIte, place]
    · have whole : ¬ (dst ≤ a ∧ a < dst + (n + size)) := by omega
      simp [first, second, whole]

theorem perform_read (reads : r.cmd = ataReadCmd) :
    (movesOf r n).foldl perform s = (copy s.2 (512 * r.LBA) s.1 r.buffer (512 * n), s.2) := by
  induction n with
  | zero => simp [movesOf]
  | succ n ih =>
    have place : 512 * (r.LBA + n) = 512 * r.LBA + 512 * n := by omega
    simp [movesOf_succ, List.foldl_append, ih, moveOf, reads, perform, place, copy_extend, mul_add]

theorem perform_write (writes : r.cmd ≠ ataReadCmd) :
    (movesOf r n).foldl perform s = (s.1, copy s.1 r.buffer s.2 (512 * r.LBA) (512 * n)) := by
  induction n with
  | zero => simp [movesOf]
  | succ n ih =>
    have place : 512 * (r.LBA + n) = 512 * r.LBA + 512 * n := by omega
    simp [movesOf_succ, List.foldl_append, ih, moveOf, writes, perform, place, copy_extend, mul_add]

theorem perform_congr {moves : List Move} {seen : Nat → Prop} {memory memory' platter : Memory}
    (outputs : ∀ sector address, .output sector address ∈ moves →
      ∀ i < 512, seen (address + i)) (same : ∀ a, seen a → memory a = memory' a) :
    (moves.foldl perform (memory, platter)).2 = (moves.foldl perform (memory', platter)).2 ∧
      ∀ a, seen a → (moves.foldl perform (memory, platter)).1 a =
        (moves.foldl perform (memory', platter)).1 a := by
  induction moves generalizing memory memory' platter with
  | nil => exact ⟨rfl, same⟩
  | cons m moves ih =>
    have later := fun sector address member =>
      outputs sector address (List.mem_cons_of_mem m member)
    cases m with
    | input sector address =>
      simp only [List.foldl_cons, perform]
      apply ih later
      intro a there
      simp only [copy, same a there]
    | output sector address =>
      have data : copy memory address platter (512 * sector) 512 =
          copy memory' address platter (512 * sector) 512 := by
        funext x
        simp only [copy]
        split
        · exact same _ (outputs sector address List.mem_cons_self _ (by omega))
        · rfl
      simp only [List.foldl_cons, perform, data]
      exact ih later same

theorem perform_memory {moves : List Move} {a : Nat}
    (outside : ∀ sector address, .input sector address ∈ moves →
      a < address ∨ address + 512 ≤ a) : (moves.foldl perform s).1 a = s.1 a := by
  induction moves generalizing s with
  | nil => rfl
  | cons m moves ih =>
    rw [List.foldl_cons, ih fun sector address member =>
      outside sector address (List.mem_cons_of_mem m member)]
    cases m with
    | input sector address =>
      exact copy_outside _ _ _ _ _ _ (outside sector address List.mem_cons_self)
    | output sector address => rfl

theorem perform_platter {moves : List Move} {x : Nat}
    (outside : ∀ sector address, .output sector address ∈ moves →
      x < 512 * sector ∨ 512 * sector + 512 ≤ x) : (moves.foldl perform s).2 x = s.2 x := by
  induction moves generalizing s with
  | nil => rfl
  | cons m moves ih =>
    rw [List.foldl_cons, ih fun sector address member =>
      outside sector address (List.mem_cons_of_mem m member)]
    cases m with
    | input sector address => rfl
    | output sector address =>
      exact copy_outside _ _ _ _ _ _ (outside sector address List.mem_cons_self)

end moves

/- The moves that are still to come, and how they leave memory and the drive. -/
def outstanding (k : Kernel) : List Move := (allMoves k.submitted).drop k.moved.length

def settled (k : Kernel) : Memory × Memory := (outstanding k).foldl perform (k.memory, k.platter)

section outstanding
variable {k k' : Kernel}

theorem movesOf_take {r : Request} {n : Nat} (within : n ≤ r.count) :
    movesOf r n = (movesOf r r.count).take n := by
  simp [movesOf, ← List.map_take, List.take_range, within]

theorem sentAt_le {r : Request} {n : Nat} (more : n < r.count) : sentAt r n ≤ r.count := by
  unfold sentAt
  split <;> omega

theorem allMoves_append (rs rs' : List Request) :
    allMoves (rs ++ rs') = allMoves rs ++ allMoves rs' := by simp [allMoves]

theorem moves_member {rs : List Request} {m : Move} (member : m ∈ allMoves rs) :
    ∃ r ∈ rs, ∃ n < r.count, m = moveOf r n := by
  obtain ⟨r, inside, moves⟩ := List.mem_flatMap.mp member
  obtain ⟨n, below, same⟩ := List.mem_map.mp moves
  exact ⟨r, inside, n, List.mem_range.mp below, same.symm⟩

theorem serving_moves (serving : Serving k) : ∃ rest, allMoves k.submitted = k.moved ++ rest ∧
    ∀ m ∈ rest, ∃ r ∈ unserved k, ∃ n < r.count, m = moveOf r n := by
  obtain ⟨finished, active, pending, serves⟩ := serving
  have queue := serves.requests
  rw [unserved, unserved_eq queue, queue.submitted, queue.moved]
  cases active with
  | none =>
    refine ⟨allMoves (pending.map Prod.snd), ?_, fun m member => ?_⟩
    · simp [allMoves_append, activeRequests, activeMoves]
    · exact moves_member member
  | some c =>
    let sent := sentAt c.request c.served
    have split : movesOf c.request c.request.count =
        movesOf c.request sent ++ (movesOf c.request c.request.count).drop sent := by
      rw [movesOf_take (sentAt_le serves.state.1.more), List.take_append_drop]
    refine ⟨(movesOf c.request c.request.count).drop sent ++ allMoves (pending.map Prod.snd),
      ?_, fun m member => ?_⟩
    · have whole : allMoves (activeRequests (some c)) = movesOf c.request c.request.count := by
        simp [allMoves, activeRequests]
      rw [allMoves_append, allMoves_append, whole]
      conv_lhs => rw [split]
      simp [activeMoves, sent, List.append_assoc]
    · rcases List.mem_append.mp member with own | later
      · obtain ⟨n, below, same⟩ := List.mem_map.mp (List.mem_of_mem_drop own)
        exact ⟨c.request, by simp [activeRequests], n, List.mem_range.mp below, same.symm⟩
      · obtain ⟨r, inside, there⟩ := moves_member later
        exact ⟨r, List.mem_append_right _ inside, there⟩

theorem moved_outstanding (serving : Serving k) :
    k.moved ++ outstanding k = allMoves k.submitted := by
  obtain ⟨rest, whole, _⟩ := serving_moves serving
  rw [outstanding, whole, List.drop_left]

theorem outstanding_member (serving : Serving k) {m : Move} (member : m ∈ outstanding k) :
    ∃ r ∈ unserved k, ∃ n < r.count, m = moveOf r n := by
  obtain ⟨rest, whole, unserved⟩ := serving_moves serving
  rw [outstanding, whole, List.drop_left] at member
  exact unserved m member

theorem outstanding_input (serving : Serving k) {sector address : Nat}
    (member : .input sector address ∈ outstanding k) :
    ∃ r ∈ unserved k, ∀ a, address ≤ a → a < address + 512 → InBuffer r a := by
  obtain ⟨r, inside, n, below, same⟩ := outstanding_member serving member
  refine ⟨r, inside, fun a low high => ?_⟩
  unfold moveOf at same
  split at same
  · obtain ⟨-, rfl⟩ := Move.input.inj same
    exact ⟨by omega, by omega⟩
  · cases same

theorem outstanding_output (serving : Serving k) {sector address : Nat}
    (member : .output sector address ∈ outstanding k) : ∃ r ∈ unserved k, r.cmd ≠ ataReadCmd ∧
      (∀ i < 512, InBuffer r (address + i)) ∧
      ∀ x, 512 * sector ≤ x → x < 512 * sector + 512 → InSectors r x := by
  obtain ⟨r, inside, n, below, same⟩ := outstanding_member serving member
  unfold moveOf at same
  split at same
  · cases same
  · rename_i writes
    obtain ⟨rfl, rfl⟩ := Move.output.inj same
    exact ⟨r, inside, writes, fun i small => ⟨by omega, by omega⟩,
      fun x low high => ⟨by omega, by omega⟩⟩

/- Steps only bring forward what is outstanding; a call adds its own moves behind. -/
theorem settled_performs {rs : List Request} (serving : Serving k) (serving' : Serving k')
    (performs : Performs k k') (submitted : k'.submitted = k.submitted ++ rs) :
    settled k' = (allMoves rs).foldl perform (settled k) := by
  obtain ⟨new, moved, effect⟩ := performs
  have rest : new ++ outstanding k' = outstanding k ++ allMoves rs := by
    have behind : k.moved ++ (new ++ outstanding k') = k.moved ++ (outstanding k ++ allMoves rs) :=
      calc k.moved ++ (new ++ outstanding k') = k'.moved ++ outstanding k' := by
            rw [moved, List.append_assoc]
        _ = allMoves k'.submitted := moved_outstanding serving'
        _ = allMoves k.submitted ++ allMoves rs := by rw [submitted, allMoves_append]
        _ = k.moved ++ (outstanding k ++ allMoves rs) := by
            rw [← moved_outstanding serving, List.append_assoc]
    exact List.append_cancel_left behind
  rw [settled, effect, ← List.foldl_append, rest, List.foldl_append, settled]

end outstanding

/- What is outstanding leaves the device as it is meant to be, and its sectors in each buffer. -/
structure Agrees (k : Kernel) (d : Device) : Prop where
  serving : Serving k
  platter : (settled k).2 = d.platter
  reads : ∀ c ∈ d.calls, c.1.cmd = ataReadCmd →
    ∀ i < 512 * c.1.count, (settled k).1 (c.1.buffer + i) = c.2 i
  waiting : ∀ r ∈ unserved k, ∃ c ∈ d.calls, c.1 = r
  apart : ∀ c ∈ d.calls, ∀ c' ∈ d.calls, c.1.tsk ≠ c'.1.tsk → Apart c.1 c'.1

section steps
variable {k k' : Kernel} {d : Device}

theorem unserved_away (serving : Serving k) {r : Request} (member : r ∈ unserved k) :
    r.tsk ≠ k.sched.current := by
  obtain ⟨_, _, _, serves⟩ := serving
  exact ((serves_orderly serves).waiting r member).away

theorem unserved_shrinks {rs : List Request} {woke : List Nat}
    (submitted : k'.submitted = k.submitted ++ rs) (woken : k'.woken = k.woken ++ woke)
    {r : Request} (member : r ∈ unserved k') : r ∈ unserved k ∨ r ∈ rs := by
  rw [unserved, submitted, woken, List.length_append, ← List.drop_drop] at member
  have less := List.mem_of_mem_drop member
  rw [List.drop_append] at less
  rcases List.mem_append.mp less with old | new
  · exact .inl old
  · exact .inr (List.mem_of_mem_drop new)

theorem interrupt_submitted {finished : List Request} {c : Active}
    {pending : List (Nat × Request)} (serves : Serves k finished (some c) pending)
    (served : Served k' finished c pending) : k'.submitted = k.submitted := by
  by_cases last : c.served + 1 = c.request.count
  · rw [(served.last last).1.requests.submitted, serves.requests.submitted]
    cases pending with
    | nil => simp [activeRequests, nextActive]
    | cons p rest => simp [activeRequests, nextActive]
  · have more := serves.state.1.more
    rw [(served.sector (by omega)).requests.submitted, serves.requests.submitted]
    rfl

theorem transfer_submitted {a cmd blocks count buffer fuel : Nat}
    (known : cmd = ataReadCmd ∨ cmd = ataWriteCmd)
    (returned : IDETransfer fuel k a cmd blocks count buffer = some k') :
    k'.submitted = k.submitted ++ [⟨k.sched.current, cmd, blocks, count, buffer⟩] := by
  rw [IDETransfer, if_pos known] at returned
  obtain ⟨sched, _, made⟩ := Option.map_eq_some_iff.mp returned
  rw [← made]
  simp only [submit, cmdOut]
  split
  · split <;> rfl
  · rfl

/- The device does not see an interrupt or a turn of the scheduler. -/
theorem agrees_unseen (agrees : Agrees k d) (serving : Serving k') (performs : Performs k k')
    (submitted : k'.submitted = k.submitted)
    (woken : ∃ woke, k'.woken = k.woken ++ woke) : Agrees k' d := by
  have none_new : k'.submitted = k.submitted ++ [] := by rw [submitted, List.append_nil]
  have same : settled k' = settled k := settled_performs agrees.serving serving performs none_new
  obtain ⟨woke, woken⟩ := woken
  constructor
  · exact serving
  · rw [same]
    exact agrees.platter
  · rw [same]
    exact agrees.reads
  · intro r member
    rcases unserved_shrinks none_new woken member with old | new
    · exact agrees.waiting r old
    · cases new
  · exact agrees.apart

theorem mem_leave {tsk : Nat} {c : Request × Memory} :
    c ∈ (d.leave tsk).calls ↔ c ∈ d.calls ∧ c.1.tsk ≠ tsk := by simp [Device.leave]

theorem agrees_leave (agrees : Agrees k d) : Agrees k (d.leave k.sched.current) := by
  constructor
  · exact agrees.serving
  · exact agrees.platter
  · exact fun c member => agrees.reads c (mem_leave.mp member).1
  · intro r member
    obtain ⟨c, inside, rfl⟩ := agrees.waiting r member
    exact ⟨c, mem_leave.mpr ⟨inside, unserved_away agrees.serving member⟩, rfl⟩
  · exact fun c member c' member' =>
      agrees.apart c (mem_leave.mp member).1 c' (mem_leave.mp member').1

theorem agrees_store {memory : Memory} (agrees : Agrees k d)
    (careful : ∀ c ∈ d.calls, ∀ a, InBuffer c.1 a → memory a = k.memory a)
    (serving : Serving { k with memory := memory }) : Agrees { k with memory := memory } d := by
  have outputs : ∀ sector address, .output sector address ∈ outstanding k →
      ∀ i < 512, ∃ c ∈ d.calls, InBuffer c.1 (address + i) := by
    intro sector address member i small
    obtain ⟨r, waits, _, inside, _⟩ := outstanding_output agrees.serving member
    obtain ⟨c, there, rfl⟩ := agrees.waiting r waits
    exact ⟨c, there, inside i small⟩
  have same : ∀ a, (∃ c ∈ d.calls, InBuffer c.1 a) → memory a = k.memory a :=
    fun a ⟨c, there, inside⟩ => careful c there a inside
  obtain ⟨platter, seen⟩ := @perform_congr _ _ _ _ k.platter outputs same
  constructor
  · exact serving
  · exact platter.trans agrees.platter
  · intro c member reads i small
    rw [← agrees.reads c member reads i small]
    exact seen _ ⟨c, member, by omega, by omega⟩
  · exact agrees.waiting
  · exact agrees.apart

theorem agrees_call {r : Request} (agrees : Agrees k d)
    (careful : ∀ c ∈ d.calls, Apart c.1 r)
    (serving : Serving k') (performs : Performs k k') (submitted : k'.submitted = k.submitted ++ [r])
    (woken : k'.woken = k.woken) : Agrees k' (d.transfer k.memory r) := by
  have after : settled k' = (movesOf r r.count).foldl perform (settled k) := by
    rw [settled_performs agrees.serving serving performs submitted]
    simp [allMoves]
  -- The calls that wait do not touch the new buffer.
  have buffer : ∀ a, InBuffer r a → (settled k).1 a = k.memory a := by
    intro a inside
    apply perform_memory
    intro sector address member
    by_contra within
    obtain ⟨r', waits, covers⟩ := outstanding_input agrees.serving member
    obtain ⟨c, there, rfl⟩ := agrees.waiting r' waits
    exact careful c there a (covers a (by omega) (by omega)) inside
  constructor
  · exact serving
  · by_cases reads : r.cmd = ataReadCmd
    · simp [after, perform_read reads, Device.transfer, reads, agrees.platter]
    · simp only [after, perform_write reads, Device.transfer, reads, ↓reduceIte, agrees.platter]
      funext x
      simp only [copy]
      split
      · exact buffer _ ⟨by omega, by omega⟩
      · rfl
  · intro c member reads i small
    rcases List.mem_append.mp member with old | new
    · rw [← agrees.reads c old reads i small, after]
      by_cases reads' : r.cmd = ataReadCmd
      · rw [perform_read reads']
        have outside := careful c old (c.1.buffer + i) ⟨by omega, by omega⟩
        exact copy_outside _ _ _ _ _ _ (by simp only [InBuffer] at outside; omega)
      · rw [perform_write reads']
    · obtain rfl := List.mem_singleton.mp new
      rw [after, perform_read reads, agrees.platter]
      exact copy_inside _ _ _ _ _ _ small
  · intro q member
    have woke : k'.woken = k.woken ++ [] := by simp [woken]
    rcases unserved_shrinks submitted woke member with old | new
    · obtain ⟨c, there, same⟩ := agrees.waiting q old
      exact ⟨c, List.mem_append_left _ there, same⟩
    · exact ⟨_, List.mem_append_right _ List.mem_cons_self, (List.mem_singleton.mp new).symm⟩
  · intro c member c' member' other
    rcases List.mem_append.mp member with old | new <;>
      rcases List.mem_append.mp member' with old' | new'
    · exact agrees.apart c old c' old' other
    · obtain rfl := List.mem_singleton.mp new'
      exact careful c old
    · obtain rfl := List.mem_singleton.mp new
      exact fun a mine theirs => careful c' old' a theirs mine
    · obtain rfl := List.mem_singleton.mp new
      obtain rfl := List.mem_singleton.mp new'
      exact absurd rfl other

theorem together_agrees (s : Kernel × Device) (e : Event) (s' : Kernel × Device)
    (agrees : Agrees s.1 s.2) (step : Together s e s') : Agrees s'.1 s'.2 := by
  obtain ⟨k, d⟩ := s
  obtain ⟨k', d'⟩ := s'
  obtain ⟨taken, after, careful⟩ := step
  obtain rfl : d' = d.after k e := after
  have ⟨serving, effect⟩ := step_effect k e k' agrees.serving taken
  have woken : ∃ woke, k'.woken = k.woken ++ woke := ⟨_, effect.wakes.choose_spec.1⟩
  have gone := agrees_leave agrees
  obtain ⟨taken, allowed⟩ := taken
  cases taken with
  | transfer _ a cmd blocks count buffer fuel returned =>
    by_cases known : cmd = ataReadCmd ∨ cmd = ataWriteCmd
    · simp only [Device.after, known, ↓reduceIte]
      exact agrees_call gone careful serving effect.performs
        (transfer_submitted known returned) (transfer_woken returned)
    · simp only [Device.after, known, ↓reduceIte]
      rw [IDETransfer, if_neg known] at returned
      obtain rfl := Option.some.inj returned
      exact gone
  | interrupt _ fuel returned =>
    obtain ⟨finished, active, pending, serves⟩ := agrees.serving
    obtain ⟨c, rfl⟩ := interrupt_active serves allowed
    exact agrees_unseen agrees serving effect.performs
      (interrupt_submitted serves (disk_handler_served serves returned)) woken
  | sched e sched step => exact agrees_unseen agrees serving effect.performs rfl woken
  | store memory => exact agrees_store gone careful serving

theorem agrees_answers (agrees : Agrees k d) : Answers k d := by
  constructor
  · intro c member own reads i small
    rw [← agrees.reads c member reads i small]
    symm
    apply perform_memory
    intro sector address moves
    by_contra within
    obtain ⟨r, waits, covers⟩ := outstanding_input agrees.serving moves
    obtain ⟨c', there, rfl⟩ := agrees.waiting r waits
    have other : c.1.tsk ≠ c'.1.tsk := by
      rw [own]
      exact (unserved_away agrees.serving waits).symm
    exact agrees.apart c member c' there other (c.1.buffer + i) ⟨by omega, by omega⟩
      (covers _ (by omega) (by omega))
  · intro x outside
    rw [← agrees.platter]
    symm
    apply perform_platter
    intro sector address moves
    by_contra within
    obtain ⟨r, waits, writes, _, covers⟩ := outstanding_output agrees.serving moves
    exact outside r waits writes (covers x (by omega) (by omega))

end steps

/-- Over every run of calls of any tasks, interrupts and turns of the scheduler, a task that runs
    again behind a read finds the sectors that a device without a queue had when it called, and the
    drive holds what that device holds, but for the sectors of writes that still wait. -/
theorem transfers_atomic {k₀ k : Kernel} {d : Device} {es : List Event}
    (booting : RunQueue.Booting k₀.sched)
    (quiet : ¬ k₀.drive.raised < sectors k₀.drive.command)
    (run : Steps Together (boot k₀, ⟨k₀.platter, []⟩) es (k, d)) : Answers k d := by
  have start : Agrees (boot k₀) ⟨k₀.platter, []⟩ := by
    constructor
    · exact boot_serving booting quiet
    · rfl
    · intro c member
      cases member
    · intro r member
      cases member
    · intro c member
      cases member
  exact agrees_answers (@invariant_of_step _ _ _ (fun s => Agrees s.1 s.2) together_agrees _ _ _
    run start)

def returned : Kernel :=
  { sectorRead with sched := (RunQueue.schedule 1 sectorRead.sched).getD sectorRead.sched }

theorem transfers_atomic_read : returned.sched.current = 2 ∧
    Answers returned ⟨bootKernel.platter,
      [(⟨2, 0x24, 5, 1, 1000⟩, fun i => bootKernel.platter (512 * 5 + i))]⟩ := by
  let start : Device := ⟨bootKernel.platter, []⟩
  obtain ⟨called, is_called⟩ : ∃ called, called =
      start.after (withSched RunQueue.switched) (.transfer 7 0x24 5 1 1000) := ⟨_, rfl⟩
  have run : Steps Together (boot bootKernel, start) [.sched (.wakeup 2), .sched .tick,
      .sched .schedule, .transfer 7 0x24 5 1 1000, .interrupt, .sched .schedule]
      (returned, called) := by
    refine .cons (m := (withSched RunQueue.made, start)) ⟨⟨.sched _ (.wakeup 2) RunQueue.made
      (.wakeup _ _ 2 1 rfl), ⟨by decide, by decide, ?_⟩, by simp [boot, diskInit]⟩, rfl, trivial⟩ ?_
    · simp [RunQueue.inQueue_iff (RunQueue.schedule_init_balanced
        RunQueue.boot_task_booting).queue.ring, boot, diskInit, bootKernel]
    refine .cons (m := (withSched (RunQueue.tick RunQueue.made), start)) ⟨⟨.sched _ .tick _
      (.tick _), trivial, by simp [withSched, boot, diskInit]⟩, rfl, trivial⟩ ?_
    refine .cons (m := (withSched RunQueue.switched, start)) ⟨⟨.sched _ .schedule RunQueue.switched
      (.schedule _ _ 1 rfl), trivial, by simp [withSched, boot, diskInit]⟩, rfl, trivial⟩ ?_
    refine .cons (m := (reading, called)) ⟨⟨.transfer _ reading 7 0x24 5 1 1000 1 rfl, by decide,
      by simp [withSched, boot, diskInit], no_requests, ⟨by decide, by decide, by decide⟩,
      by decide⟩, is_called, by simp [Careful, Device.leave, start]⟩ ?_
    refine .cons (m := (sectorRead, called)) ⟨⟨.interrupt reading sectorRead 1 rfl,
      (by decide : reading.drive.raised < sectors reading.drive.command)⟩, rfl, trivial⟩ ?_
    refine .cons (m := (returned, called)) ⟨⟨.sched sectorRead .schedule returned.sched
      (.schedule _ _ 1 rfl), trivial, fun state same => by cases same⟩, rfl, trivial⟩ ?_
    exact .nil _
  have answers := transfers_atomic RunQueue.boot_task_booting (by decide) run
  rw [is_called] at answers
  exact ⟨rfl, answers⟩

end AtomicDisk

import Mathlib.Algebra.Ring.Nat
import Q2os.Disk

/- Every request is served once and in order: the queue of disk.c as a list of requests, the
   one in the drive and the ones still to come. -/
namespace Disk
open ByteMemory CircularList KernelList Run RunQueue

def nodeAfter (r : Request) (n : Nat) : BlockBufferNode :=
  ⟨r.count - n, r.cmd, r.LBA, r.buffer + 512 * n,
    if r.cmd = ataReadCmd then .read_handler else .write_handler, r.tsk⟩

/- The sectors of a request that went through the port after n interrupts: the drive takes
   the first one of a write with the command. -/
def sentAt (r : Request) (n : Nat) : Nat := if r.cmd = ataReadCmd then n else n + 1

structure Active where
  node : Nat
  request : Request
  served : Nat

def activeRequests (active : Option Active) : List Request :=
  active.toList.map Active.request

def activeMoves : Option Active → List Move
  | none => []
  | some c => movesOf c.request (sentAt c.request c.served)

def allMoves (finished : List Request) : List Move :=
  finished.flatMap fun r => movesOf r r.count

structure Fit (r : Request) : Prop where
  known : r.cmd = ataReadCmd ∨ r.cmd = ataWriteCmd
  carried : Carried r.LBA r.count

/- The request queue itself. -/
structure Requests (k : Kernel) (finished : List Request) (active : Option Active)
    (pending : List (Nat × Request)) : Prop where
  ring : Ring k.links diskRequest (pending.map Prod.fst)
  nodes : ∀ p ∈ pending, k.node p.1 = nodeAfter p.2 0
  submitted : k.submitted = finished ++ activeRequests active ++ pending.map Prod.snd
  issued : k.issued = (finished ++ activeRequests active).map commandOf
  moved : k.moved = allMoves finished ++ activeMoves active
  woken : k.woken = finished.map Request.tsk
  counted : k.blockRequestCount = pending.length
  fit : ∀ r ∈ k.submitted, Fit r

structure InDrive (k : Kernel) (c : Active) : Prop where
  inUsing : k.inUsing = some c.node
  node : k.node c.node = nodeAfter c.request c.served
  drive : k.drive = ⟨commandOf c.request, c.served, sentAt c.request c.served⟩
  more : c.served < c.request.count

structure Idle (k : Kernel) : Prop where
  inUsing : k.inUsing = none
  drive : ¬ k.drive.raised < sectors k.drive.command

def DriveState (k : Kernel) (pending : List (Nat × Request)) : Option Active → Prop
  | none => Idle k ∧ pending = []
  | some c => InDrive k c ∧ c.node ∉ pending.map Prod.fst

/- The tasks that wait sleep, each for one request. -/
structure Sleepers (sched : Schedule) (tasks : List Nat) : Prop where
  asleep : ∀ t ∈ tasks, Asleep sched t
  apart : tasks.Nodup
  balanced : ∃ xs, Balanced sched xs

def waitingTasks (active : Option Active) (pending : List (Nat × Request)) : List Nat :=
  (activeRequests active ++ pending.map Prod.snd).map Request.tsk

structure Serves (k : Kernel) (finished : List Request) (active : Option Active)
    (pending : List (Nat × Request)) : Prop where
  requests : Requests k finished active pending
  state : DriveState k pending active
  sleepers : Sleepers k.sched (waitingTasks active pending)

theorem sectorNumber_eq {LBA : Nat} (small : LBA < 2 ^ 48) : sectorNumber LBA = LBA := by
  simp only [sectorNumber, Nat.shiftRight_eq_div_pow]
  omega

theorem sectorCount_eq (count : Nat) : sectorCount count = count % 65536 := by
  simp only [sectorCount, Nat.shiftRight_eq_div_pow]
  omega

theorem sectors_eq {r : Request} (fit : Fit r) : sectors (commandOf r) = r.count := by
  have low := fit.carried.some_sector
  have high := fit.carried.in_register
  by_cases full : r.count % 65536 = 0
  · simp only [sectors, commandOf, full, ↓reduceIte]
    omega
  · simp only [sectors, commandOf, full, ↓reduceIte]
    omega

theorem movesOf_succ (r : Request) (n : Nat) :
    movesOf r (n + 1) = movesOf r n ++ [moveOf r n] := by
  simp [movesOf, List.range_succ]

def nodePassed (r : Request) (n : Nat) : BlockBufferNode :=
  { nodeAfter r (n + 1) with buffer := r.buffer + 512 * n }

theorem pass_nodeAfter {r : Request} {n : Nat} (fit : Fit r) (more : n < r.count) :
    pass (nodeAfter r n) = nodePassed r n := by
  have high := fit.carried.in_register
  have count : (r.count - n + (2 ^ 32 - 1)) % 2 ^ 32 = r.count - (n + 1) := by omega
  simp only [pass, nodePassed, nodeAfter, count]

theorem advance_passed (r : Request) (n : Nat) :
    advance (nodePassed r n) = nodeAfter r (n + 1) := by
  simp only [advance, nodePassed, nodeAfter, BlockBufferNode.mk.injEq, and_true, true_and]
  omega

/- cmd_out tells the drive the first request's command; for a write its first sector
   goes along. -/
theorem cmd_out_eq {k : Kernel} {a : Nat} {r : Request} (first : k.links.next diskRequest = a)
    (node : k.node a = nodeAfter r 0) (fit : Fit r) :
    ∃ memory platter, cmdOut k = { k with
      links := listDel k.links a
      inUsing := some a
      blockRequestCount := k.blockRequestCount - 1
      drive := ⟨commandOf r, 0, sentAt r 0⟩
      issued := k.issued ++ [commandOf r]
      moved := k.moved ++ movesOf r (sentAt r 0)
      memory := memory
      platter := platter } := by
  have below := fit.carried.addressed
  have number : sectorNumber r.LBA = r.LBA := by
    have low := fit.carried.some_sector
    exact sectorNumber_eq (by omega)
  rcases fit.known with reads | writes
  · refine ⟨k.memory, k.platter, ?_⟩
    simp [cmdOut, first, node, nodeAfter, reads, number, sectorCount_eq, commandOf, sentAt,
      movesOf, ataReadCmd, ataWriteCmd]
  · refine ⟨k.memory, copy k.memory r.buffer k.platter (512 * r.LBA) 512, ?_⟩
    simp [cmdOut, first, node, nodeAfter, writes, number, sectorCount_eq, commandOf, sentAt,
      movesOf, moveOf, ataReadCmd, ataWriteCmd, portOutsw, transferSector, perform]

theorem cmd_out_serves {k : Kernel} {finished : List Request} {a : Nat} {r : Request}
    {rest : List (Nat × Request)} (h : Requests k finished none ((a, r) :: rest)) :
    Requests (cmdOut k) finished (some ⟨a, r, 0⟩) rest ∧
      DriveState (cmdOut k) rest (some ⟨a, r, 0⟩) ∧ (cmdOut k).sched = k.sched := by
  have fit : Fit r := h.fit r (by simp [h.submitted])
  have first : k.links.next diskRequest = a := h.ring.forward.1
  have node : k.node a = nodeAfter r 0 := h.nodes (a, r) List.mem_cons_self
  obtain ⟨memory, platter, same⟩ := cmd_out_eq first node fit
  have fresh := (List.nodup_cons.mp (List.nodup_cons.mp h.ring.nodup).2).1
  rw [same]
  constructor
  · constructor
    · exact list_del_head_ring h.ring
    · exact fun p member => h.nodes p (List.mem_cons_of_mem _ member)
    · simp [h.submitted, activeRequests]
    · simp [h.issued, activeRequests]
    · simp [h.moved, activeMoves]
    · exact h.woken
    · have counted := h.counted
      simp only [List.length_cons] at counted ⊢
      omega
    · exact h.fit
  · exact ⟨⟨⟨rfl, node, rfl, fit.carried.some_sector⟩, fresh⟩, rfl⟩

def enqueue (k : Kernel) (a : Nat) (r : Request) : Kernel :=
  addRequest (makeRequest { k with submitted := k.submitted ++ [r] } a r.cmd r.LBA r.count
    r.buffer) a

theorem enqueue_node {k : Kernel} {a : Nat} {r : Request} (fit : Fit r)
    (own : r.tsk = k.sched.current) :
    (enqueue k a r).node = Function.update k.node a (nodeAfter r 0) := by
  have high := fit.carried.in_register
  have count : r.count % 2 ^ 32 = r.count := Nat.mod_eq_of_lt (by omega)
  simp only [enqueue, addRequest, makeRequest, setNode, nodeAfter, count, own, Nat.sub_zero,
    Nat.mul_zero, Nat.add_zero]

theorem list_init_outside {l : Links Nat} {head n : Nat} {xs : List Nat} (ring : Ring l head xs)
    (fresh : n ∉ head :: xs) : Ring (listInit l n) head xs := by
  have other : ∀ x ∈ head :: xs, x ≠ n := by
    intro x member same
    exact fresh (same ▸ member)
  have back : ∀ x ∈ head :: xs.reverse, x ≠ n := by
    intro x member
    exact other x (by simpa using member)
  constructor
  · apply linked_congr _ ring.forward
    intro x member
    simp [listInit, setNext, setPrev, other x member]
  · apply linked_congr _ ring.backward
    intro x member
    simp [listInit, setNext, setPrev, back x member]
  · exact ring.nodup

theorem enqueue_requests {k : Kernel} {finished : List Request} {active : Option Active}
    {pending : List (Nat × Request)} (h : Requests k finished active pending) {a : Nat}
    {r : Request} (fresh : a ∉ diskRequest :: pending.map Prod.fst) (fit : Fit r)
    (own : r.tsk = k.sched.current) :
    Requests (enqueue k a r) finished active (pending ++ [(a, r)]) := by
  have nodes := enqueue_node (a := a) fit own
  constructor
  · have ring := list_init_outside h.ring fresh
    have parts : Ring (listInit k.links a) diskRequest (pending.map Prod.fst ++ []) := by
      simpa using ring
    have added := list_add_to_before_ring (n := a) parts (by simpa using fresh)
    simpa [firstNode, enqueue, addRequest, makeRequest, setNode] using added
  · intro p member
    rw [nodes]
    rcases List.mem_append.mp member with old | new
    · have other : p.1 ≠ a := by
        intro same
        have inside := List.mem_map_of_mem (f := Prod.fst) old
        rw [same] at inside
        exact fresh (List.mem_cons_of_mem _ inside)
      rw [Function.update_of_ne other]
      exact h.nodes p old
    · rw [List.mem_singleton.mp new, Function.update_self]
  · simp [enqueue, addRequest, makeRequest, setNode, h.submitted]
  · exact h.issued
  · exact h.moved
  · exact h.woken
  · have counted := h.counted
    simp only [enqueue, addRequest, makeRequest, setNode, List.length_append,
      List.length_singleton]
    omega
  · intro q member
    simp only [enqueue, addRequest, makeRequest, setNode, List.mem_append,
      List.mem_singleton] at member
    rcases member with old | new
    · exact h.fit q old
    · exact new ▸ fit

theorem submit_serves {k : Kernel} {finished : List Request} {active : Option Active}
    {pending : List (Nat × Request)} (h : Requests k finished active pending)
    (state : DriveState k pending active) {a : Nat} {r : Request}
    (fresh : a ∉ diskRequest :: pending.map Prod.fst) (unused : k.inUsing ≠ some a) (fit : Fit r)
    (own : r.tsk = k.sched.current) :
    ∃ active' pending',
      let k' := submit (makeRequest { k with submitted := k.submitted ++ [r] } a r.cmd r.LBA
        r.count r.buffer) a
      Requests k' finished active' pending' ∧ DriveState k' pending' active' ∧
      k'.sched = k.sched ∧ waitingTasks active' pending' = waitingTasks active pending ++ [r.tsk] := by
  have queued := enqueue_requests h fresh fit own
  have kept : (enqueue k a r).inUsing = k.inUsing := rfl
  cases active with
  | none =>
    obtain ⟨idle, empty⟩ := state
    subst empty
    have free : (enqueue k a r).inUsing = none := idle.inUsing
    have started : submit (makeRequest { k with submitted := k.submitted ++ [r] } a r.cmd r.LBA
        r.count r.buffer) a = cmdOut (enqueue k a r) := by
      simp only [submit]
      exact if_pos free
    rw [started]
    obtain ⟨requests, drive, sched⟩ := cmd_out_serves queued
    exact ⟨_, _, requests, drive, sched, rfl⟩
  | some c =>
    obtain ⟨inDrive, outside⟩ := state
    have busy : (enqueue k a r).inUsing ≠ none := by
      rw [kept, inDrive.inUsing]
      simp
    have waits : submit (makeRequest { k with submitted := k.submitted ++ [r] } a r.cmd r.LBA
        r.count r.buffer) a = enqueue k a r := by
      simp only [submit]
      exact if_neg busy
    rw [waits]
    have apart : c.node ≠ a := by
      intro same
      exact unused (same ▸ inDrive.inUsing)
    refine ⟨some c, pending ++ [(a, r)], queued, ⟨⟨inDrive.inUsing, ?_, inDrive.drive,
      inDrive.more⟩, ?_⟩, rfl, by simp [waitingTasks, activeRequests]⟩
    · rw [enqueue_node fit own, Function.update_of_ne apart]
      exact inDrive.node
    · simpa [apart] using outside

theorem requests_sched {k : Kernel} {finished : List Request} {active : Option Active}
    {pending : List (Nat × Request)} (h : Requests k finished active pending)
    (sched : Schedule) : Requests { k with sched := sched } finished active pending :=
  ⟨h.ring, h.nodes, h.submitted, h.issued, h.moved, h.woken, h.counted, h.fit⟩

theorem driveState_sched {k : Kernel} {active : Option Active} {pending : List (Nat × Request)}
    (h : DriveState k pending active) (sched : Schedule) :
    DriveState { k with sched := sched } pending active := by
  cases active with
  | none => exact ⟨⟨h.1.inUsing, h.1.drive⟩, h.2⟩
  | some c => exact ⟨⟨h.1.inUsing, h.1.node, h.1.drive, h.1.more⟩, h.2⟩

theorem sleepers_wait {s s' : Schedule} {tasks : List Nat} {fuel : Nat} (h : Sleepers s tasks)
    (work : s.current ≠ s.initTask)
    (returned : schedule fuel (setState s s.current taskUninterruptible) = some s') :
    Sleepers s' (tasks ++ [s.current]) := by
  obtain ⟨xs, balanced⟩ := h.balanced
  have calm := block_balanced balanced taskUninterruptible
  constructor
  · intro t member
    rcases List.mem_append.mp member with old | new
    · have asleep := h.asleep t old
      apply schedule_asleep calm returned asleep.task asleep.work
      simpa [setState, asleep.away] using asleep.blocked
    · rw [List.mem_singleton.mp new]
      apply schedule_asleep calm returned balanced.current work
      simp [setState, taskUninterruptible, taskRunning]
  · have other : ∀ t ∈ tasks, t ≠ s.current := fun t member => (h.asleep t member).away
    simpa [List.nodup_append, h.apart] using other
  · exact schedule_balanced calm returned

theorem transfer_serves {k k' : Kernel} {finished : List Request} {active : Option Active}
    {pending : List (Nat × Request)} (h : Serves k finished active pending)
    {a cmd blocks count buffer fuel : Nat}
    (allowed : Admissible k (.transfer a cmd blocks count buffer))
    (returned : IDETransfer fuel k a cmd blocks count buffer = some k') :
    ∃ active' pending', Serves k' finished active' pending' := by
  obtain ⟨not_head, unused, outside, carried, work⟩ := allowed
  unfold IDETransfer at returned
  split at returned
  · rename_i known
    have fresh : a ∉ diskRequest :: pending.map Prod.fst := by
      simp only [List.mem_cons, not_or]
      exact ⟨not_head, outside _ h.requests.ring⟩
    have fit : Fit ⟨k.sched.current, cmd, blocks, count, buffer⟩ := ⟨known, carried⟩
    obtain ⟨active', pending', requests, drive, sched, tasks⟩ :=
      submit_serves h.requests h.state fresh unused fit rfl
    obtain ⟨s', scheduled, made⟩ := Option.map_eq_some_iff.mp returned
    rw [sched] at scheduled
    rw [← made]
    refine ⟨active', pending', requests_sched requests s', driveState_sched drive s', ?_⟩
    rw [tasks]
    exact sleepers_wait h.sleepers work scheduled
  · rw [← Option.some.inj returned]
    exact ⟨active, pending, h⟩

theorem sleepers_wake {s s' : Schedule} {t fuel : Nat} {tasks : List Nat}
    (h : Sleepers s (t :: tasks)) (returned : wakeupProcess fuel s t = some s') :
    Sleepers s' tasks := by
  obtain ⟨xs, balanced⟩ := h.balanced
  have asleep := h.asleep t List.mem_cons_self
  have absent := (List.nodup_cons.mp h.apart).1
  have outside : ¬ InQueue s t := by
    rw [inQueue_iff balanced.queue.ring]
    exact asleep_not_queued balanced asleep
  constructor
  · intro other member
    have apart : other ≠ t := fun same => absent (same ▸ member)
    exact wakeup_asleep returned (h.asleep other (List.mem_cons_of_mem t member)) apart
  · exact (List.nodup_cons.mp h.apart).2
  · exact wakeup_balanced balanced ⟨asleep.task, asleep.away, outside⟩ returned

theorem sleepers_queue {s s' : Schedule} {t fuel : Nat} {tasks : List Nat}
    (h : Sleepers s (t :: tasks)) (returned : wakeupProcess fuel s t = some s') :
    InQueue s' t := by
  have asleep := h.asleep t List.mem_cons_self
  obtain ⟨ys, balanced⟩ := (sleepers_wake h returned).balanced
  obtain ⟨states, current, idle⟩ := wakeup_frame returned
  refine ⟨ys, balanced.queue.ring, (balanced.members t).mpr ⟨asleep.task, ?_, ?_, ?_⟩⟩
  · rw [current]
    exact asleep.away
  · rw [idle]
    exact asleep.work
  · rw [states, Function.update_self]

theorem requests_setNode {k : Kernel} {finished : List Request} {active : Option Active}
    {pending : List (Nat × Request)} (h : Requests k finished active pending) {a : Nat}
    (outside : a ∉ pending.map Prod.fst) (node : BlockBufferNode) :
    Requests (setNode k a node) finished active pending := by
  refine ⟨h.ring, ?_, h.submitted, h.issued, h.moved, h.woken, h.counted, h.fit⟩
  intro p member
  have other : p.1 ≠ a := by
    intro same
    exact outside (same ▸ List.mem_map_of_mem member)
  simp only [setNode, Function.update_of_ne other]
  exact h.nodes p member

theorem requests_move {k : Kernel} {finished : List Request} {c : Active}
    {pending : List (Nat × Request)} (h : Requests k finished (some c) pending) {n : Nat}
    {m : Move} (next : movesOf c.request (sentAt c.request n) =
      movesOf c.request (sentAt c.request c.served) ++ [m]) :
    Requests (transferSector k m) finished (some { c with served := n }) pending := by
  refine ⟨h.ring, h.nodes, h.submitted, h.issued, ?_, h.woken, h.counted, h.fit⟩
  simp only [transferSector, h.moved, activeMoves, next, List.append_assoc]

/- The request whose sectors have all moved becomes the last finished one. -/
theorem requests_finish {k : Kernel} {finished : List Request} {c : Active}
    {pending : List (Nat × Request)} (h : Requests k finished (some c) pending)
    (all : activeMoves (some c) = movesOf c.request c.request.count) (sched : Schedule) :
    Requests { k with
        sched := sched, woken := k.woken ++ [c.request.tsk], inUsing := none }
      (finished ++ [c.request]) none pending := by
  refine ⟨h.ring, h.nodes, ?_, ?_, ?_, ?_, h.counted, h.fit⟩
  · simpa [activeRequests] using h.submitted
  · simpa [activeRequests] using h.issued
  · have moved := h.moved
    rw [all] at moved
    simpa [allMoves, activeMoves] using moved
  · simp [h.woken]

def nextActive (pending : List (Nat × Request)) : Option Active :=
  pending.head?.map fun p => ⟨p.1, p.2, 0⟩

/- end_request wakes the task of the finished request and starts the next one, if any. -/
theorem end_request_serves {k k' : Kernel} {finished : List Request} {c : Active}
    {pending : List (Nat × Request)} {fuel : Nat} (h : Requests k finished (some c) pending)
    (all : activeMoves (some c) = movesOf c.request c.request.count)
    (own : (k.node c.node).tsk = c.request.tsk)
    (quiet : ¬ k.drive.raised < sectors k.drive.command)
    (sleepers : Sleepers k.sched (waitingTasks (some c) pending))
    (returned : endRequest fuel k c.node = some k') :
    Serves k' (finished ++ [c.request]) (nextActive pending) pending.tail ∧
      InQueue k'.sched c.request.tsk := by
  obtain ⟨sched, woke, made⟩ := Option.map_eq_some_iff.mp returned
  rw [own] at woke
  have done := requests_finish h all sched
  have awake : Sleepers sched (waitingTasks none pending) := sleepers_wake sleepers woke
  have queued : InQueue sched c.request.tsk := sleepers_queue sleepers woke
  simp only [own] at made
  cases pending with
  | nil =>
    have last : k.blockRequestCount = 0 := h.counted
    simp only [last, ne_eq, not_true_eq_false, ↓reduceIte] at made
    rw [← made]
    rw [last] at done
    exact ⟨⟨done, ⟨⟨rfl, quiet⟩, rfl⟩, awake⟩, queued⟩
  | cons p rest =>
    have more : k.blockRequestCount ≠ 0 := by
      have counted := h.counted
      simp only [List.length_cons] at counted
      omega
    simp only [more, ne_eq, not_false_eq_true, ↓reduceIte] at made
    obtain ⟨requests, drive, same⟩ := cmd_out_serves done
    rw [← made]
    refine ⟨⟨requests, drive, ?_⟩, ?_⟩
    · rw [same]
      exact awake
    · rw [same]
      exact queued

theorem raise_drive {k : Kernel} {c : Active} (h : InDrive k c) :
    (raise k).drive = ⟨commandOf c.request, c.served + 1, sentAt c.request c.served⟩ := by
  simp only [raise, h.drive]

theorem requests_raise {k : Kernel} {finished : List Request} {active : Option Active}
    {pending : List (Nat × Request)} (h : Requests k finished active pending) :
    Requests (raise k) finished active pending :=
  ⟨h.ring, h.nodes, h.submitted, h.issued, h.moved, h.woken, h.counted, h.fit⟩

theorem all_raised {r : Request} {n sent : Nat} (fit : Fit r) (last : n = r.count) :
    ¬ (Drive.mk (commandOf r) n sent).raised <
      sectors (Drive.mk (commandOf r) n sent).command := by
  simp only [sectors_eq fit, last]
  exact Nat.lt_irrefl _

/- After an interrupt: the request in use has one sector more, or it is finished. -/
structure Served (k : Kernel) (finished : List Request) (c : Active)
    (pending : List (Nat × Request)) : Prop where
  sector : c.served + 1 < c.request.count →
    Serves k finished (some { c with served := c.served + 1 }) pending
  last : c.served + 1 = c.request.count →
    Serves k (finished ++ [c.request]) (nextActive pending) pending.tail ∧
      InQueue k.sched c.request.tsk

theorem setNode_node (k : Kernel) (a : Nat) (node : BlockBufferNode) :
    (setNode k a node).node a = node := Function.update_self ..

/- The sectors still to come decide between the two ways out of a handler. -/
theorem passed_count {r : Request} {n : Nat} (more : n < r.count) :
    (nodePassed r n).count ≠ 0 ↔ n + 1 < r.count := by
  simp only [nodePassed, nodeAfter]
  omega

theorem read_handler_serves {k k' : Kernel} {finished : List Request} {c : Active}
    {pending : List (Nat × Request)} {fuel : Nat} (h : Serves k finished (some c) pending)
    (reads : c.request.cmd = ataReadCmd) (returned : readHandler fuel (raise k) c.node = some k') :
    Served k' finished c pending := by
  obtain ⟨inDrive, outside⟩ := h.state
  have fit : Fit c.request := h.requests.fit _ (by simp [h.requests.submitted, activeRequests])
  have drive := raise_drive inDrive
  have node : (raise k).node c.node = nodeAfter c.request c.served := inDrive.node
  have sent : ∀ n, sentAt c.request n = n := fun n => if_pos reads
  let moved := transferSector (raise k) (moveOf c.request c.served)
  have port : portInsw (raise k) ((raise k).node c.node).buffer = moved := by
    simp only [portInsw, drive, node, moved, moveOf, reads, ↓reduceIte, sent]
    rfl
  have next : movesOf c.request (sentAt c.request (c.served + 1)) =
      movesOf c.request (sentAt c.request c.served) ++ [moveOf c.request c.served] := by
    rw [sent, sent, movesOf_succ]
  have queue := requests_setNode (requests_move (requests_raise h.requests) next) outside
    (nodePassed c.request c.served)
  have passed : pass (moved.node c.node) = nodePassed c.request c.served := by
    rw [← pass_nodeAfter fit inDrive.more, ← inDrive.node]
    rfl
  have driven : moved.drive = ⟨commandOf c.request, c.served + 1, c.served + 1⟩ := by
    simp only [moved, transferSector, drive, sent]
  simp only [readHandler, port, passed, setNode_node, passed_count inDrive.more,
    advance_passed] at returned
  constructor
  · intro more
    rw [if_pos more] at returned
    rw [← Option.some.inj returned]
    refine ⟨requests_setNode queue outside _, ⟨⟨inDrive.inUsing, setNode_node _ _ _, ?_, more⟩,
      outside⟩, h.sleepers⟩
    rw [sent]
    exact driven
  · intro last
    rw [if_neg (by omega)] at returned
    have all : activeMoves (some { c with served := c.served + 1 }) =
        movesOf c.request c.request.count := by
      simp only [activeMoves, sent, last]
    have quiet : ¬ (setNode moved c.node (nodePassed c.request c.served)).drive.raised <
        sectors (setNode moved c.node (nodePassed c.request c.served)).drive.command := by
      simp only [setNode, driven]
      exact @all_raised _ _ (c.served + 1) fit last
    have finish := end_request_serves (c := { c with served := c.served + 1 }) queue all
      (by simp [setNode_node, nodePassed, nodeAfter]) quiet h.sleepers returned
    exact finish

theorem write_handler_serves {k k' : Kernel} {finished : List Request} {c : Active}
    {pending : List (Nat × Request)} {fuel : Nat} (h : Serves k finished (some c) pending)
    (writes : c.request.cmd ≠ ataReadCmd)
    (returned : writeHandler fuel (raise k) c.node = some k') :
    Served k' finished c pending := by
  obtain ⟨inDrive, outside⟩ := h.state
  have fit : Fit c.request := h.requests.fit _ (by simp [h.requests.submitted, activeRequests])
  have drive := raise_drive inDrive
  have sent : ∀ n, sentAt c.request n = n + 1 := fun n => if_neg writes
  have passed : pass ((raise k).node c.node) = nodePassed c.request c.served := by
    rw [← pass_nodeAfter fit inDrive.more, ← inDrive.node]
    rfl
  simp only [writeHandler, passed, setNode_node, passed_count inDrive.more,
    advance_passed] at returned
  have queue := requests_setNode (requests_raise h.requests) outside
    (nodePassed c.request c.served)
  constructor
  · intro more
    rw [if_pos more] at returned
    let before := setNode (setNode (raise k) c.node (nodePassed c.request c.served)) c.node
      (nodeAfter c.request (c.served + 1))
    have driven : before.drive = ⟨commandOf c.request, c.served + 1, c.served + 1⟩ := by
      simp only [before, setNode, drive, sent]
    have port : portOutsw before (nodeAfter c.request (c.served + 1)).buffer =
        transferSector before (moveOf c.request (c.served + 1)) := by
      simp only [portOutsw, driven, moveOf, writes, ↓reduceIte]
      rfl
    have next : movesOf c.request (sentAt c.request (c.served + 1)) =
        movesOf c.request (sentAt c.request c.served) ++
          [moveOf c.request (c.served + 1)] := by
      rw [sent, sent, movesOf_succ]
    have ready := requests_setNode queue outside (nodeAfter c.request (c.served + 1))
    rw [← Option.some.inj returned, port]
    refine ⟨requests_move ready next, ⟨⟨inDrive.inUsing, setNode_node _ _ _, ?_, more⟩,
      outside⟩, h.sleepers⟩
    simp only [transferSector, driven, sent]
  · intro last
    rw [if_neg (by omega)] at returned
    have all : activeMoves (some c) = movesOf c.request c.request.count := by
      simp only [activeMoves, sent, last]
    have quiet : ¬ (raise k).drive.raised < sectors (raise k).drive.command := by
      rw [drive]
      exact all_raised fit last
    exact end_request_serves queue all (by simp [setNode_node, nodePassed, nodeAfter]) quiet
      h.sleepers returned

/- The handler that make_request chose fits the command. -/
theorem disk_handler_served {k k' : Kernel} {finished : List Request} {c : Active}
    {pending : List (Nat × Request)} {fuel : Nat} (h : Serves k finished (some c) pending)
    (returned : diskHandler fuel (raise k) = some k') : Served k' finished c pending := by
  obtain ⟨inDrive, _⟩ := h.state
  have inUsing : (raise k).inUsing = some c.node := inDrive.inUsing
  have node : (raise k).node c.node = nodeAfter c.request c.served := inDrive.node
  simp only [diskHandler, inUsing, Option.bind_some, node] at returned
  by_cases reads : c.request.cmd = ataReadCmd
  · simp only [nodeAfter, reads, ↓reduceIte] at returned
    exact read_handler_serves h reads returned
  · simp only [nodeAfter, reads, ↓reduceIte] at returned
    exact write_handler_serves h reads returned

theorem interrupt_active {k : Kernel} {finished : List Request} {active : Option Active}
    {pending : List (Nat × Request)} (h : Serves k finished active pending)
    (allowed : Admissible k .interrupt) : ∃ c, active = some c := by
  cases active with
  | none => exact absurd allowed h.state.1.drive
  | some c => exact ⟨c, rfl⟩

theorem served_serves {k : Kernel} {finished : List Request} {c : Active}
    {pending : List (Nat × Request)} (more : c.served < c.request.count)
    (h : Served k finished c pending) :
    ∃ finished' active' pending', Serves k finished' active' pending' := by
  by_cases last : c.served + 1 = c.request.count
  · exact ⟨_, _, _, (h.last last).1⟩
  · exact ⟨_, _, _, h.sector (by omega)⟩

/- The requests not yet finished, as the history has them. -/
theorem unserved_eq {k : Kernel} {finished : List Request} {active : Option Active}
    {pending : List (Nat × Request)} (h : Requests k finished active pending) :
    k.submitted.drop k.woken.length = activeRequests active ++ pending.map Prod.snd := by
  simp [h.submitted, h.woken]

theorem sched_serves {k : Kernel} {finished : List Request} {active : Option Active}
    {pending : List (Nat × Request)} (h : Serves k finished active pending)
    {e : RunQueue.Event} {sched : Schedule} (allowed : Admissible k (.sched e))
    (step : RunQueue.Step k.sched e sched) :
    Serves { k with sched := sched } finished active pending := by
  obtain ⟨allowed, quiet⟩ := allowed
  obtain ⟨xs, balanced⟩ := h.sleepers.balanced
  refine ⟨requests_sched h.requests sched, driveState_sched h.state sched, ?_, h.sleepers.apart,
    step_balanced _ e _ ⟨xs, balanced⟩ ⟨step, allowed⟩⟩
  intro t member
  obtain ⟨r, inside, own⟩ := List.mem_map.mp member
  apply step_asleep balanced (h.sleepers.asleep t member) _ step
  rw [← own]
  exact quiet r (by rwa [unserved_eq h.requests])

theorem store_serves {k : Kernel} {finished : List Request} {active : Option Active}
    {pending : List (Nat × Request)} (h : Serves k finished active pending) (memory : Memory) :
    Serves { k with memory := memory } finished active pending := by
  refine ⟨⟨h.requests.ring, h.requests.nodes, h.requests.submitted, h.requests.issued,
    h.requests.moved, h.requests.woken, h.requests.counted, h.requests.fit⟩, ?_, h.sleepers⟩
  have state := h.state
  cases active with
  | none => exact ⟨⟨state.1.inUsing, state.1.drive⟩, state.2⟩
  | some c => exact ⟨⟨state.1.inUsing, state.1.node, state.1.drive, state.1.more⟩, state.2⟩

def Serving (k : Kernel) : Prop :=
  ∃ finished active pending, Serves k finished active pending

theorem step_serving (k : Kernel) (e : Event) (k' : Kernel) (h : Serving k)
    (step : Guarded Admissible Step k e k') : Serving k' := by
  obtain ⟨finished, active, pending, serves⟩ := h
  obtain ⟨step, allowed⟩ := step
  cases step with
  | transfer _ a cmd blocks count buffer fuel returned =>
    exact ⟨finished, transfer_serves serves allowed returned⟩
  | interrupt _ fuel returned =>
    obtain ⟨c, rfl⟩ := interrupt_active serves allowed
    exact served_serves serves.state.1.more (disk_handler_served serves returned)
  | sched e sched step => exact ⟨finished, active, pending, sched_serves serves allowed step⟩
  | store memory => exact ⟨finished, active, pending, store_serves serves memory⟩

/- What the history says at every moment: commands go out in the order of submission and
   one at a time, sector by sector between their place on the disk and in the buffer; a task
   sleeps until its request is done and was woken once for it. -/
structure Orderly (k : Kernel) : Prop where
  issued : k.issued = (k.submitted.take k.issued.length).map commandOf
  single : k.woken.length ≤ k.issued.length ∧ k.issued.length ≤ k.woken.length + 1
  moved : ∃ n, k.moved = allMoves (k.submitted.take k.woken.length) ++
      ((k.submitted.take k.issued.length).drop k.woken.length).flatMap (movesOf · n) ∧
    ∀ r ∈ (k.submitted.take k.issued.length).drop k.woken.length, n ≤ r.count
  woken : k.woken = (k.submitted.take k.woken.length).map Request.tsk
  waiting : ∀ r ∈ k.submitted.drop k.woken.length, Asleep k.sched r.tsk
  counted : k.blockRequestCount = k.submitted.length - k.issued.length

theorem take_issued {k : Kernel} {finished : List Request} {active : Option Active}
    {pending : List (Nat × Request)} (h : Requests k finished active pending) :
    k.submitted.take k.issued.length = finished ++ activeRequests active := by
  have parts : k.issued.length = (finished ++ activeRequests active).length := by
    simp [h.issued]
  rw [parts, h.submitted, List.take_left]

theorem take_woken {k : Kernel} {finished : List Request} {active : Option Active}
    {pending : List (Nat × Request)} (h : Requests k finished active pending) :
    k.submitted.take k.woken.length = finished := by
  have parts : k.woken.length = finished.length := by simp [h.woken]
  rw [parts, h.submitted, List.append_assoc, List.take_left]

theorem drop_woken {k : Kernel} {finished : List Request} {active : Option Active}
    {pending : List (Nat × Request)} (h : Requests k finished active pending) :
    (k.submitted.take k.issued.length).drop k.woken.length = activeRequests active := by
  have parts : k.woken.length = finished.length := by simp [h.woken]
  rw [take_issued h, parts, List.drop_left]

theorem serves_orderly {k : Kernel} {finished : List Request} {active : Option Active}
    {pending : List (Nat × Request)} (h : Serves k finished active pending) : Orderly k := by
  have queue := h.requests
  constructor
  · rw [take_issued queue]
    exact queue.issued
  · have one : (activeRequests active).length ≤ 1 := by
      cases active with
      | none => exact Nat.zero_le 1
      | some c => exact Nat.le_refl 1
    simp only [queue.issued, queue.woken, List.length_map, List.length_append]
    omega
  · rw [take_woken queue, drop_woken queue, queue.moved]
    cases active with
    | none => exact ⟨0, rfl, by simp [activeRequests]⟩
    | some c =>
      refine ⟨sentAt c.request c.served, by simp [activeRequests, activeMoves], ?_⟩
      intro r member
      have same : r = c.request := by simpa [activeRequests] using member
      have more := h.state.1.more
      rw [same]
      unfold sentAt
      split <;> omega
  · rw [take_woken queue]
    exact queue.woken
  · intro r member
    rw [unserved_eq queue] at member
    exact h.sleepers.asleep r.tsk (List.mem_map_of_mem member)
  · simp only [queue.counted, queue.submitted, queue.issued, List.length_map,
      List.length_append]
    omega

/- A state that differs by the moves it logged and what they do. -/
def Performs (k k' : Kernel) : Prop :=
  ∃ new, k'.moved = k.moved ++ new ∧
    (k'.memory, k'.platter) = new.foldl perform (k.memory, k.platter)

theorem performs_none {k k' : Kernel} (moved : k'.moved = k.moved) (memory : k'.memory = k.memory)
    (platter : k'.platter = k.platter) : Performs k k' :=
  ⟨[], by simp [moved], by simp [memory, platter]⟩

theorem performs_trans {k m k' : Kernel} (first : Performs k m) (second : Performs m k') :
    Performs k k' := by
  obtain ⟨front, moved, effect⟩ := first
  obtain ⟨back, moved', effect'⟩ := second
  refine ⟨front ++ back, ?_, ?_⟩
  · rw [moved', moved, List.append_assoc]
  · rw [effect', effect, List.foldl_append]

theorem transferSector_performs (k : Kernel) (m : Move) : Performs k (transferSector k m) :=
  ⟨[m], rfl, rfl⟩

theorem cmd_out_performs (k : Kernel) : Performs k (cmdOut k) := by
  simp only [cmdOut]
  split
  · apply performs_trans _ (transferSector_performs _ _)
    exact performs_none rfl rfl rfl
  · exact performs_none rfl rfl rfl

theorem submit_performs (k : Kernel) (a : Nat) : Performs k (submit k a) := by
  have added : Performs k (addRequest k a) := performs_none rfl rfl rfl
  simp only [submit]
  split
  · exact performs_trans added (cmd_out_performs _)
  · exact added

theorem transfer_performs {k k' : Kernel} {a cmd blocks count buffer fuel : Nat}
    (returned : IDETransfer fuel k a cmd blocks count buffer = some k') : Performs k k' := by
  unfold IDETransfer at returned
  split at returned
  · obtain ⟨sched, _, made⟩ := Option.map_eq_some_iff.mp returned
    rw [← made]
    apply performs_trans (performs_trans _ (submit_performs _ a)) (performs_none rfl rfl rfl)
    exact performs_none rfl rfl rfl
  · rw [← Option.some.inj returned]
    exact performs_none rfl rfl rfl

theorem end_request_performs {k k' : Kernel} {a fuel : Nat}
    (returned : endRequest fuel k a = some k') : Performs k k' := by
  obtain ⟨sched, _, made⟩ := Option.map_eq_some_iff.mp returned
  rw [← made]
  dsimp only
  split
  · apply performs_trans _ (cmd_out_performs _)
    exact performs_none rfl rfl rfl
  · exact performs_none rfl rfl rfl

theorem read_handler_performs {k k' : Kernel} {a fuel : Nat}
    (returned : readHandler fuel k a = some k') : Performs k k' := by
  have port : Performs k (portInsw k (k.node a).buffer) := transferSector_performs _ _
  simp only [readHandler] at returned
  split at returned
  · rw [← Option.some.inj returned]
    exact performs_trans port (performs_none rfl rfl rfl)
  · apply performs_trans port
    apply performs_trans _ (end_request_performs returned)
    exact performs_none rfl rfl rfl

theorem write_handler_performs {k k' : Kernel} {a fuel : Nat}
    (returned : writeHandler fuel k a = some k') : Performs k k' := by
  simp only [writeHandler] at returned
  split at returned
  · rw [← Option.some.inj returned]
    apply performs_trans _ (transferSector_performs _ _)
    exact performs_none rfl rfl rfl
  · apply performs_trans _ (end_request_performs returned)
    exact performs_none rfl rfl rfl

theorem disk_handler_performs {k k' : Kernel} {fuel : Nat}
    (returned : diskHandler fuel k = some k') : Performs k k' := by
  obtain ⟨a, _, handled⟩ := Option.bind_eq_some_iff.mp returned
  split at handled
  · exact read_handler_performs handled
  · exact write_handler_performs handled

/- What each step shows: it moved the sectors it logged, besides what a task stored, and the
   tasks it woke are in the run queue. -/
structure Effect (k : Kernel) (e : Event) (k' : Kernel) : Prop where
  performs : match e with
    | .store memory => k'.moved = k.moved ∧ k'.memory = memory ∧ k'.platter = k.platter
    | _ => Performs k k'
  wakes : ∃ woke, k'.woken = k.woken ++ woke ∧ ∀ t ∈ woke, InQueue k'.sched t

theorem cmd_out_woken (k : Kernel) : (cmdOut k).woken = k.woken := by
  simp only [cmdOut]
  split <;> rfl

theorem transfer_woken {k k' : Kernel} {a cmd blocks count buffer fuel : Nat}
    (returned : IDETransfer fuel k a cmd blocks count buffer = some k') : k'.woken = k.woken := by
  unfold IDETransfer at returned
  split at returned
  · obtain ⟨sched, _, made⟩ := Option.map_eq_some_iff.mp returned
    rw [← made]
    simp only [submit]
    split
    · exact cmd_out_woken _
    · rfl
  · rw [← Option.some.inj returned]

theorem interrupt_wakes {k k' : Kernel} {finished : List Request} {c : Active}
    {pending : List (Nat × Request)} (h : Serves k finished (some c) pending)
    (served : Served k' finished c pending) :
    ∃ woke, k'.woken = k.woken ++ woke ∧ ∀ t ∈ woke, InQueue k'.sched t := by
  by_cases last : c.served + 1 = c.request.count
  · obtain ⟨serves, queued⟩ := served.last last
    refine ⟨[c.request.tsk], ?_, by simpa using queued⟩
    rw [serves.requests.woken, h.requests.woken, List.map_append]
    rfl
  · have more := h.state.1.more
    have serves := served.sector (by omega)
    exact ⟨[], by rw [serves.requests.woken, h.requests.woken, List.append_nil], by simp⟩

theorem step_effect (k : Kernel) (e : Event) (k' : Kernel) (h : Serving k)
    (step : Guarded Admissible Step k e k') : Serving k' ∧ Effect k e k' := by
  refine ⟨step_serving k e k' h step, ?_⟩
  obtain ⟨finished, active, pending, serves⟩ := h
  obtain ⟨step, allowed⟩ := step
  cases step with
  | transfer _ a cmd blocks count buffer fuel returned =>
    exact ⟨transfer_performs returned, [], by simp [transfer_woken returned], by simp⟩
  | interrupt _ fuel returned =>
    obtain ⟨c, rfl⟩ := interrupt_active serves allowed
    have performs : Performs k k' :=
      performs_trans (m := raise k) (performs_none rfl rfl rfl) (disk_handler_performs returned)
    exact ⟨performs, interrupt_wakes serves (disk_handler_served serves returned)⟩
  | sched e sched step =>
    exact ⟨performs_none rfl rfl rfl, [], by simp, by simp⟩
  | store memory => exact ⟨⟨rfl, rfl, rfl⟩, [], by simp, by simp⟩

def left (active : Option Active) (pending : List (Nat × Request)) : Nat :=
  (active.map fun c => c.request.count - c.served).getD 0 +
    (pending.map fun p => p.2.count).sum

theorem left_next (pending : List (Nat × Request)) :
    left (nextActive pending) pending.tail = (pending.map fun p => p.2.count).sum := by
  cases pending with
  | nil => rfl
  | cons p rest => simp [left, nextActive]

theorem end_request_returns {k : Kernel} {tasks : List Nat} (h : Sleepers k.sched tasks)
    (a : Nat) : ∃ fuel k', endRequest fuel k a = some k' := by
  obtain ⟨xs, balanced⟩ := h.balanced
  obtain ⟨sched, woke⟩ := wakeup_returns balanced.queue (k.node a).tsk
  exact ⟨xs.length + 1, _, Option.map_eq_some_iff.mpr ⟨sched, woke, rfl⟩⟩

theorem disk_handler_returns {k : Kernel} {finished : List Request} {c : Active}
    {pending : List (Nat × Request)} (h : Serves k finished (some c) pending) :
    ∃ fuel k', diskHandler fuel (raise k) = some k' := by
  obtain ⟨inDrive, _⟩ := h.state
  have inUsing : (raise k).inUsing = some c.node := inDrive.inUsing
  simp only [diskHandler, inUsing, Option.bind_some]
  split
  · simp only [readHandler]
    split
    · exact ⟨0, _, rfl⟩
    · exact end_request_returns (k := setNode (portInsw (raise k) _) c.node _) h.sleepers c.node
  · simp only [writeHandler]
    split
    · exact ⟨0, _, rfl⟩
    · exact end_request_returns (k := setNode (raise k) c.node _) h.sleepers c.node

theorem interrupt_closer {k : Kernel} {finished : List Request} {c : Active}
    {pending : List (Nat × Request)} (h : Serves k finished (some c) pending) :
    ∃ k' finished' active' pending', Guarded Admissible Step k .interrupt k' ∧
      Serves k' finished' active' pending' ∧ k'.submitted = k.submitted ∧
      left active' pending' + 1 = left (some c) pending := by
  have fit : Fit c.request := h.requests.fit _ (by simp [h.requests.submitted, activeRequests])
  have more := h.state.1.more
  obtain ⟨fuel, k', returned⟩ := disk_handler_returns h
  have allowed : Admissible k .interrupt := by
    simp only [Admissible, h.state.1.drive, sectors_eq fit]
    exact more
  have step : Guarded Admissible Step k .interrupt k' := ⟨.interrupt k k' fuel returned, allowed⟩
  have served := disk_handler_served h returned
  by_cases last : c.served + 1 = c.request.count
  · obtain ⟨serves, _⟩ := served.last last
    refine ⟨k', _, _, _, step, serves, ?_, ?_⟩
    · rw [serves.requests.submitted, h.requests.submitted]
      cases pending with
      | nil => simp [activeRequests, nextActive]
      | cons p rest => simp [activeRequests, nextActive]
    · rw [left_next]
      simp only [left, Option.map_some, Option.getD_some]
      omega
  · have serves := served.sector (by omega)
    refine ⟨k', _, _, _, step, serves, ?_, ?_⟩
    · rw [serves.requests.submitted, h.requests.submitted]
      rfl
    · simp only [left, Option.map_some, Option.getD_some]
      omega

/- Interrupts alone finish every request submitted so far. -/
theorem interrupts_finish {k : Kernel} {finished : List Request} {active : Option Active}
    {pending : List (Nat × Request)} (h : Serves k finished active pending) :
    ∃ k', Steps (Guarded Admissible Step) k
        (List.replicate (left active pending) .interrupt) k' ∧
      k'.woken = k.submitted.map Request.tsk := by
  induction steps : left active pending generalizing k finished active pending with
  | zero =>
    cases active with
    | none =>
      obtain ⟨_, empty⟩ := h.state
      subst empty
      exact ⟨k, .nil k, by simp [h.requests.woken, h.requests.submitted, activeRequests]⟩
    | some c =>
      have more := h.state.1.more
      simp only [left, Option.map_some, Option.getD_some] at steps
      omega
  | succ n ih =>
    cases active with
    | none =>
      obtain ⟨_, empty⟩ := h.state
      subst empty
      simp [left] at steps
    | some c =>
      obtain ⟨m, _, _, _, step, serves, same, closer⟩ := interrupt_closer h
      obtain ⟨k', rest, woken⟩ := ih serves (by omega)
      exact ⟨k', .cons step rest, by rw [woken, same]⟩

/- disk_init, some time after schedule_init. -/
def boot (k : Kernel) : Kernel := diskInit { k with sched := scheduleInit k.sched }

theorem boot_serving {k : Kernel} (booting : Booting k.sched)
    (quiet : ¬ k.drive.raised < sectors k.drive.command) : Serving (boot k) := by
  refine ⟨[], none, [], ⟨list_init_ring _ _, by simp, rfl, rfl, rfl, rfl, rfl, by simp [boot,
    diskInit]⟩, ⟨⟨rfl, quiet⟩, rfl⟩, by simp [waitingTasks, activeRequests], List.nodup_nil, ?_⟩
  exact ⟨[], schedule_init_balanced booting⟩

/- Over every run of submissions and interrupts the requests are served in order, each
   sector moves between its place on the disk and its place in the buffer, and the
   interrupts that are due wake every task once. -/
theorem disk_requests_served {k₀ k : Kernel} {es : List Event} (booting : Booting k₀.sched)
    (quiet : ¬ k₀.drive.raised < sectors k₀.drive.command)
    (run : Steps (Guarded Admissible Step) (boot k₀) es k) :
    Steps (Meeting Effect (Guarded Admissible Step)) (boot k₀) es k ∧ Orderly k ∧
      ∃ n k', Steps (Guarded Admissible Step) k (List.replicate n .interrupt) k' ∧
        k'.woken = k.submitted.map Request.tsk := by
  have start := boot_serving booting quiet
  have effects := steps_meeting step_effect run start
  obtain ⟨finished, active, pending, serves⟩ :=
    @invariant_of_step _ _ _ Serving step_serving _ _ _ run start
  exact ⟨effects, serves_orderly serves, _, interrupts_finish serves⟩

theorem unlinked_apart {l : Links Nat} {head a : Nat} {xs : List Nat} (ring : Ring l head xs)
    (unlinked : l.next a = a) : a ∉ xs := by
  intro member
  obtain ⟨pre, post, rfl⟩ := List.append_of_mem member
  have next : l.next a = firstNode post head := by
    have split : pre ++ a :: post = (pre ++ [a]) ++ post := by simp
    rw [split] at ring
    simpa [lastNode_append] using ring_next ring
  cases post with
  | nil =>
    have same : head = a := next.symm.trans unlinked
    exact (List.nodup_cons.mp ring.nodup).1 (same ▸ member)
  | cons x post =>
    have same : x = a := next.symm.trans unlinked
    have apart := (List.nodup_append.mp (List.nodup_cons.mp ring.nodup).2).2.1
    exact (List.nodup_cons.mp apart).1 (same ▸ List.mem_cons_self)

/- The steps as a function, for nodes that no request has used. -/
def next (k : Kernel) : Event → Option Kernel
  | .transfer a cmd blocks count buffer =>
    if a ≠ diskRequest ∧ k.inUsing ≠ some a ∧ k.links.next a = a ∧
        (1 ≤ count ∧ count ≤ 65536 ∧ blocks + count ≤ 2 ^ 48) ∧
        k.sched.current ≠ k.sched.initTask then
      IDETransfer k.sched.runningTaskCount.toNat k a cmd blocks count buffer
    else none
  | .interrupt =>
    if k.drive.raised < sectors k.drive.command then
      diskHandler k.sched.runningTaskCount.toNat (raise k)
    else none
  | .sched e =>
    if ∀ r ∈ k.submitted.drop k.woken.length, e ≠ .wakeup r.tsk then
      (RunQueue.next k.sched e).map fun sched => { k with sched := sched }
    else none
  | .store memory => some { k with memory := memory }

theorem next_step (k : Kernel) (e : Event) (k' : Kernel) (serving : Serving k)
    (taken : next k e = some k') : Guarded Admissible Step k e k' := by
  obtain ⟨finished, active, pending, serves⟩ := serving
  cases e with
  | transfer a cmd blocks count buffer =>
    obtain ⟨⟨real, idle, unlinked, ⟨some_, few, low⟩, work⟩, returned⟩ :=
      Option.ite_none_right_eq_some.mp taken
    exact ⟨.transfer k k' a cmd blocks count buffer _ returned, real, idle,
      fun xs ring => unlinked_apart ring unlinked, ⟨some_, few, low⟩, work⟩
  | interrupt =>
    obtain ⟨due, returned⟩ := Option.ite_none_right_eq_some.mp taken
    exact ⟨.interrupt k k' _ returned, due⟩
  | sched e =>
    obtain ⟨others, mapped⟩ := Option.ite_none_right_eq_some.mp taken
    obtain ⟨sched, step, rfl⟩ := Option.map_eq_some_iff.mp mapped
    obtain ⟨step, allowed⟩ := RunQueue.next_step k.sched e sched serves.sleepers.balanced step
    exact ⟨.sched k e sched step, allowed, others⟩
  | store memory =>
    cases taken
    exact ⟨.store k memory, trivial⟩

def bootKernel : Kernel :=
  ⟨bootTask, ⟨id, id⟩, fun _ => ⟨0, 0, 0, 0, .read_handler, 0⟩, none, 0, ⟨⟨0, 0, 1⟩, 1, 0⟩,
    fun _ => 0, fun _ => 0, [], [], [], []⟩

def withSched (sched : Schedule) : Kernel := { boot bootKernel with sched := sched }

def reading : Kernel := (IDETransfer 1 (withSched switched) 7 0x24 5 1 1000).getD bootKernel

def sectorRead : Kernel := (diskHandler 1 (raise reading)).getD bootKernel

theorem no_requests (xs : List Nat) (ring : Ring (withSched switched).links diskRequest xs) :
    7 ∉ xs :=
  unlinked_apart ring rfl

def twoRequests : List Event :=
  [.sched (.wakeup 2), .sched (.wakeup 3), .sched .tick, .sched .schedule,
    .transfer 7 0x24 5 2 1000, .transfer 8 0x34 9 3 4096, .interrupt, .sched .tick, .interrupt,
    .sched .schedule, .interrupt]

theorem disk_requests_served_two : ∃ k, exec next (boot bootKernel) twoRequests = some k ∧
    k.submitted.map Request.tsk = [3, 2] ∧ k.woken = [3] ∧ k.moved.length = 4 ∧
    Steps (Meeting Effect (Guarded Admissible Step)) (boot bootKernel) twoRequests k ∧
      Orderly k ∧ ∃ n k', Steps (Guarded Admissible Step) k (List.replicate n .interrupt) k' ∧
        k'.woken = k.submitted.map Request.tsk := by
  have ran : (exec next (boot bootKernel) twoRequests).map (fun k =>
      (k.submitted.map Request.tsk, k.woken, k.moved.length)) = some ([3, 2], [3], 4) := by
    decide +kernel
  obtain ⟨k, reached, facts⟩ := Option.map_eq_some_iff.mp ran
  simp only [Prod.mk.injEq] at facts
  have quiet : ¬ bootKernel.drive.raised < sectors bootKernel.drive.command := by decide
  exact ⟨k, reached, facts.1, facts.2.1, facts.2.2, disk_requests_served boot_task_booting quiet
    (steps_of_exec_within step_serving next_step (boot_serving boot_task_booting quiet) reached)⟩

end Disk

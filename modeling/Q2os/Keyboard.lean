import Q2os.InputBuffer
import Q2os.UserMemory
import Q2os.Run

/- The keyboard driver: interrupts store scan codes, readers take them out. A reader that
   finds the ring empty sleeps once and copies whatever is there when it runs again. -/
namespace Keyboard
open ByteMemory UserMemory InputBuffer Run

/- One keyboard_read call: the memory of the calling task, the buffer address and count. -/
structure Reader where
  user : Memory
  buf : Nat
  count : Nat

/- keyboard_read after the wait. The distance to the end of the array is a signed long; it
   becomes an unsigned long as a size. Both pieces go to the start of the caller's buffer. -/
def keyboardRead (kb : KeyboardInputbuffer) (r : Reader) : KeyboardInputbuffer × Memory × Nat :=
  let counter := if kb.count ≥ r.count then r.count else kb.count
  let tail := kb.pTail
  let room : Int := (kbBufSize : Int) - tail
  if (counter : Int) ≤ room then
    ({ kb with pTail := kb.pTail + counter, count := kb.count - counter },
      copyToUser kb.buf tail r.user r.buf counter, counter)
  else
    let first := copyToUser kb.buf tail r.user r.buf (room % 2 ^ 64).toNat
    let second := copyToUser kb.buf kb.pHead first r.buf ((counter - room) % 2 ^ 64).toNat
    ({ kb with pTail := kb.pHead + (counter - room).toNat, count := kb.count - counter },
      second, counter)

/- received and delivered are the history; the rest is the state of the driver. sleeping is
   keyboard_wait_queue, woken the readers made runnable and not yet back from schedule. -/
structure Driver where
  kb : KeyboardInputbuffer
  sleeping : List Reader
  woken : List Reader
  received : List UInt8
  delivered : List UInt8

inductive Event where
  | handler (x : UInt8)
  | read (r : Reader)
  | resume (i : Nat)

def keyboardOpen (kb : KeyboardInputbuffer) : Driver := ⟨reset kb, [], [], [], []⟩

def wakeup (d : Driver) : Driver :=
  match d.sleeping with
  | [] => d
  | r :: rest => { d with sleeping := rest, woken := d.woken ++ [r] }

def keyboardHandler (d : Driver) (x : UInt8) : Driver :=
  wakeup { d with kb := store d.kb x, received := d.received ++ [x] }

def deliver (d : Driver) (r : Reader) : Driver :=
  let (kb, user, counter) := keyboardRead d.kb r
  { d with kb := kb, delivered := d.delivered ++ slice user r.buf counter }

inductive Step : Driver → Event → Driver → Prop where
  | handler (d : Driver) (x : UInt8) : Step d (.handler x) (keyboardHandler d x)
  | sleep (d : Driver) (r : Reader) (empty : d.kb.count = 0) :
      Step d (.read r) { d with sleeping := d.sleeping ++ [r] }
  | read (d : Driver) (r : Reader) (ready : d.kb.count ≠ 0) : Step d (.read r) (deliver d r)
  | resume (d : Driver) (r : Reader) (i : Nat) (back : d.woken[i]? = some r) :
      Step d (.resume i) (deliver { d with woken := d.woken.eraseIdx i } r)

/- Requests for at least one byte, and never more than kbBufSize unread. -/
def Admissible (d : Driver) : Event → Prop
  | .handler _ => d.kb.count < kbBufSize
  | .read r => 1 ≤ r.count
  | .resume _ => True

instance (d : Driver) (e : Event) : Decidable (Admissible d e) := by
  cases e <;> simp only [Admissible] <;> infer_instance

/- The copy stays within user space and does not reach the end of the array. -/
def Direct (kb : KeyboardInputbuffer) (r : Reader) : Prop :=
  let counter := min r.count kb.count
  r.buf + counter ≤ taskSize ∧ counter ≤ kbBufSize - kb.pTail

def DirectStep (d : Driver) : Event → Prop
  | .handler _ => True
  | .read r => Direct d.kb r
  | .resume i => ∀ r, d.woken[i]? = some r → Direct d.kb r

structure Faithful (d : Driver) : Prop where
  fifo : d.delivered <+: d.received
  head_within : d.kb.pHead ≤ kbBufSize
  tail_within : d.kb.pTail ≤ kbBufSize

/- The received bytes are those delivered followed by those the ring still holds. -/
def Accounted (d : Driver) : Prop :=
  ∃ unread, Holds d.kb unread ∧ d.received = d.delivered ++ unread

theorem keyboard_read_direct (kb : KeyboardInputbuffer) (r : Reader) (direct : Direct kb r)
    (tail_le : kb.pTail ≤ kbBufSize) :
    keyboardRead kb r =
      ({ kb with pTail := kb.pTail + min r.count kb.count,
                 count := kb.count - min r.count kb.count },
        copy kb.buf kb.pTail r.user r.buf (min r.count kb.count), min r.count kb.count) := by
  have counter : (if kb.count ≥ r.count then r.count else kb.count) = min r.count kb.count := by
    split <;> omega
  have room : ((min r.count kb.count : Nat) : Int) ≤ (kbBufSize : Int) - kb.pTail := by
    have := direct.2
    omega
  simp only [keyboardRead, counter, room, ↓reduceIte, copyToUser_valid direct.1]

theorem deliver_accounted (d : Driver) (r : Reader) (h : Accounted d)
    (direct : Direct d.kb r) : Accounted (deliver d r) := by
  obtain ⟨unread, holds, received⟩ := h
  have available : min r.count d.kb.count ≤ d.kb.count := Nat.min_le_right _ _
  refine ⟨unread.drop (min r.count d.kb.count), ?_, ?_⟩
  · simp only [deliver, keyboard_read_direct d.kb r direct holds.tail_le]
    exact advance_holds holds available direct.2
  · simp only [deliver, keyboard_read_direct d.kb r direct holds.tail_le]
    rw [slice_copy, taken_bytes holds available direct.2, received, List.append_assoc,
      List.take_append_drop]

theorem wakeup_accounted (d : Driver) (h : Accounted d) : Accounted (wakeup d) := by
  unfold wakeup
  split <;> exact h

theorem handler_accounted (d : Driver) (x : UInt8) (h : Accounted d)
    (room : d.kb.count < kbBufSize) : Accounted (keyboardHandler d x) := by
  obtain ⟨unread, holds, received⟩ := h
  apply wakeup_accounted
  exact ⟨unread ++ [x], store_holds holds room x, by simp [received]⟩

theorem step_accounted (d : Driver) (e : Event) (d' : Driver) (h : Accounted d)
    (step : Guarded DirectStep (Guarded Admissible Step) d e d') : Accounted d' := by
  obtain ⟨⟨step, admissible⟩, direct⟩ := step
  cases step with
  | handler x => exact handler_accounted d x h admissible
  | sleep r empty => exact h
  | read r ready => exact deliver_accounted d r h direct
  | resume r i back =>
    exact deliver_accounted { d with woken := d.woken.eraseIdx i } r h (direct r back)

theorem accounted_faithful (d : Driver) (h : Accounted d) : Faithful d := by
  obtain ⟨unread, holds, received⟩ := h
  exact ⟨⟨unread, received.symm⟩, holds.head_le, holds.tail_le⟩

theorem open_accounted (kb : KeyboardInputbuffer) : Accounted (keyboardOpen kb) :=
  ⟨[], reset_holds kb, rfl⟩

/- While every copy ends before the end of the array, the readers get the bytes in order. -/
theorem keyboard_fifo_while_direct (kb : KeyboardInputbuffer) (es : List Event) (d : Driver)
    (run : Steps (Guarded DirectStep (Guarded Admissible Step)) (keyboardOpen kb) es d) :
    Faithful d :=
  accounted_faithful d (invariant_of_step step_accounted run (open_accounted kb))

def readerOf (count : Nat) : Reader := ⟨fun _ => 0, 0, count⟩

def emptyBuffer : KeyboardInputbuffer := ⟨0, 0, 0, fun _ => 0⟩

instance (kb : KeyboardInputbuffer) (r : Reader) : Decidable (Direct kb r) :=
  inferInstanceAs (Decidable (_ ∧ _))

/- The steps that the theorem is about, as a function. -/
def next (d : Driver) : Event → Option Driver
  | .handler x => if d.kb.count < kbBufSize then some (keyboardHandler d x) else none
  | .read r =>
    if 1 ≤ r.count ∧ Direct d.kb r then
      some (if d.kb.count = 0 then { d with sleeping := d.sleeping ++ [r] } else deliver d r)
    else none
  | .resume i => d.woken[i]?.bind fun r =>
    if Direct d.kb r then some (deliver { d with woken := d.woken.eraseIdx i } r) else none

theorem next_step (d : Driver) (e : Event) (d' : Driver) (taken : next d e = some d') :
    Guarded DirectStep (Guarded Admissible Step) d e d' := by
  cases e with
  | handler x =>
    obtain ⟨room, made⟩ := Option.ite_none_right_eq_some.mp taken
    cases made
    exact ⟨⟨.handler d x, room⟩, trivial⟩
  | read r =>
    obtain ⟨⟨some_, direct⟩, made⟩ := Option.ite_none_right_eq_some.mp taken
    cases made
    refine ⟨⟨?_, some_⟩, direct⟩
    split
    · next empty => exact .sleep d r empty
    · next ready => exact .read d r ready
  | resume i =>
    obtain ⟨r, back, taken⟩ := Option.bind_eq_some_iff.mp taken
    obtain ⟨direct, made⟩ := Option.ite_none_right_eq_some.mp taken
    cases made
    refine ⟨⟨.resume d r i back, trivial⟩, fun r' same => ?_⟩
    cases back.symm.trans same
    exact direct

/- Two readers sleep, the first byte wakes one and the second one the other; bytes of a later
   interrupt stay for a third reader. -/
def twoSleepers : List Event :=
  [.read (readerOf 3), .read (readerOf 1), .handler 30, .handler 158, .resume 1, .handler 48,
    .resume 0, .handler 176, .handler 46, .handler 174, .read (readerOf 2)]

theorem keyboard_fifo_two_sleepers : ∃ d, exec next (keyboardOpen emptyBuffer) twoSleepers = some d ∧
    d.delivered = [30, 158, 48, 176, 46] ∧ d.kb.count = 1 ∧ Faithful d := by
  have ran : (exec next (keyboardOpen emptyBuffer) twoSleepers).map
      (fun d => (d.delivered, d.kb.count)) = some ([30, 158, 48, 176, 46], 1) := by decide +kernel
  obtain ⟨d, reached, facts⟩ := Option.map_eq_some_iff.mp ran
  simp only [Prod.mk.injEq] at facts
  exact ⟨d, reached, facts.1, facts.2, keyboard_fifo_while_direct emptyBuffer twoSleepers d
    (steps_mono next_step (steps_of_exec reached))⟩

theorem handlers_run (bytes : List UInt8) (d : Driver)
    (room : d.kb.count + bytes.length ≤ kbBufSize) :
    Steps (Guarded Admissible Step) d (bytes.map .handler) (bytes.foldl keyboardHandler d) := by
  induction bytes generalizing d with
  | nil => exact .nil _
  | cons x rest ih =>
    have counted : (keyboardHandler d x).kb.count = d.kb.count + 1 := by
      unfold keyboardHandler wakeup
      split <;> rfl
    simp only [List.length_cons] at room
    exact .cons ⟨.handler d x, by simp only [Admissible]; omega⟩ (ih _ (by rw [counted]; omega))

/- kbBufSize bytes are typed and read at once, which leaves the tail at the end of the
   array; the byte typed next is stored at its start, but the read looks at the head. -/
def filled : Driver := (List.replicate kbBufSize 1).foldl keyboardHandler (keyboardOpen emptyBuffer)

def drained : Driver := deliver filled (readerOf kbBufSize)

def afterWrap : Driver := deliver (keyboardHandler drained 2) (readerOf 1)

theorem filled_run : Steps (Guarded Admissible Step) (keyboardOpen emptyBuffer)
    ((List.replicate kbBufSize 1).map .handler) filled :=
  handlers_run _ _ (by decide)

theorem keyboard_fifo_fails_at_wrap :
    ¬ ∀ kb es d, Steps (Guarded Admissible Step) (keyboardOpen kb) es d → Faithful d := by
  intro claim
  have drained_run := steps_append filled_run (steps_single (t := drained)
    ⟨.read filled (readerOf kbBufSize) (by decide +kernel), by decide +kernel⟩)
  have typed_run := steps_append drained_run (steps_single (t := keyboardHandler drained 2)
    ⟨.handler drained 2, by decide +kernel⟩)
  have run := steps_append typed_run (steps_single (t := afterWrap)
    ⟨.read _ (readerOf 1) (by decide +kernel), by decide +kernel⟩)
  have stale : ¬ afterWrap.delivered <+: afterWrap.received := by decide +kernel
  exact stale (claim _ _ _ run).fifo

end Keyboard

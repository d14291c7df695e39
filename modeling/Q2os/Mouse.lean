import Q2os.InputBuffer
import Q2os.Run

/- The mouse driver: interrupts store bytes in a ring, analysis_mousecode takes one out and
   puts three of them together to a packet. -/
namespace Mouse
open ByteMemory InputBuffer Run

structure MousePacket where
  byte0 : UInt8
  byte1 : Int8
  byte2 : Int8
deriving DecidableEq

/- received, delivered and reported are the history: the bytes read from the port, the results
   of get_mousecode and the packets printed. -/
structure Driver where
  pMouse : KeyboardInputbuffer
  mouseCount : Nat
  mouse : MousePacket
  received : List UInt8
  delivered : List UInt8
  reported : List MousePacket

inductive Event where
  | handler (x : UInt8)
  | get
  | analysis

def mouseInit (pMouse : KeyboardInputbuffer) (mouse : MousePacket) : Driver :=
  ⟨reset pMouse, 0, mouse, [], [], []⟩

def mouseHandler (d : Driver) (x : UInt8) : Driver :=
  { d with pMouse := store d.pMouse x, received := d.received ++ [x] }

/- None while the loop waits for a byte. -/
def getMousecode (d : Driver) : Option (UInt8 × Driver) :=
  if d.pMouse.count = 0 then none
  else
    let pTail := if d.pMouse.pTail = kbBufSize then 0 else d.pMouse.pTail
    let ret := d.pMouse.buf pTail
    some (ret, { d with
      pMouse := { d.pMouse with count := d.pMouse.count - 1, pTail := pTail + 1 }
      delivered := d.delivered ++ [ret] })

def decode (d : Driver) (x : UInt8) : Driver :=
  match d.mouseCount with
  | 0 => { d with mouseCount := 1 }
  | 1 => { d with mouse := { d.mouse with byte0 := x }, mouseCount := 2 }
  | 2 => { d with mouse := { d.mouse with byte1 := x.toInt8 }, mouseCount := 3 }
  | 3 =>
    let mouse := { d.mouse with byte2 := x.toInt8 }
    { d with mouse := mouse, mouseCount := 1, reported := d.reported ++ [mouse] }
  | _ => d

def analysisMousecode (d : Driver) : Option Driver :=
  (getMousecode d).map fun (x, d) => decode d x

def next (d : Driver) : Event → Option Driver
  | .handler x => some (mouseHandler d x)
  | .get => (getMousecode d).map Prod.snd
  | .analysis => analysisMousecode d

def Step (d : Driver) (e : Event) (d' : Driver) : Prop := next d e = some d'

/- A byte arrives while the ring has room for it. -/
def Room (d : Driver) : Event → Prop
  | .handler _ => d.pMouse.count < kbBufSize
  | _ => True

instance (d : Driver) (e : Event) : Decidable (Room d e) := by
  cases e <;> simp only [Room] <;> infer_instance

/- What a step must show: no more unread bytes than the ring has places, and the bytes
   delivered among the bytes received, in their order. -/
def Survives (_ : Driver) (_ : Event) (d' : Driver) : Prop :=
  d'.pMouse.count ≤ kbBufSize ∧ d'.delivered.Sublist d'.received

/- The received bytes are those delivered followed by those the ring still holds. -/
def Accounted (d : Driver) : Prop :=
  ∃ unread, Holds d.pMouse unread ∧ d.received = d.delivered ++ unread

theorem init_accounted (pMouse : KeyboardInputbuffer) (mouse : MousePacket) :
    Accounted (mouseInit pMouse mouse) :=
  ⟨[], reset_holds pMouse, rfl⟩

theorem wrap_holds {kb : KeyboardInputbuffer} {unread : List UInt8} (h : Holds kb unread)
    (some_unread : kb.count ≠ 0) :
    Holds { kb with pTail := if kb.pTail = kbBufSize then 0 else kb.pTail } unread := by
  by_cases at_end : kb.pTail = kbBufSize
  · have head := h.head_le
    have fits := h.fits
    simp only [if_pos at_end]
    refine ⟨Nat.zero_le _, head, h.counted, fits, ?_, fun i inside => ?_⟩
    · left
      have head_at := h.head_at
      show kb.pHead = 0 + kb.count
      omega
    · have stored := h.stored i inside
      have same : cell kb.pTail i = cell 0 i := by
        have small : i < kbBufSize := Nat.lt_of_lt_of_le inside fits
        rw [at_end, cell, cell, if_neg (by omega), if_pos (by omega)]
        omega
      rw [stored, same]
  · simp only [if_neg at_end]
    exact h

theorem get_next {d : Driver} {x : UInt8} {rest : List UInt8} (h : Holds d.pMouse (x :: rest)) :
    ∃ pMouse, getMousecode d =
      some (x, { d with pMouse := pMouse, delivered := d.delivered ++ [x] }) ∧
      pMouse.count + 1 = d.pMouse.count ∧ Holds pMouse rest := by
  have counted := h.counted
  have some_unread : d.pMouse.count ≠ 0 := by
    rw [← counted]
    exact Nat.succ_ne_zero _
  have wrapped := wrap_holds h some_unread
  have below : (if d.pMouse.pTail = kbBufSize then 0 else d.pMouse.pTail) < kbBufSize := by
    have tail := h.tail_le
    split
    · decide
    · omega
  have first : d.pMouse.buf (if d.pMouse.pTail = kbBufSize then 0 else d.pMouse.pTail) = x := by
    have stored := wrapped.stored 0 (Nat.pos_of_ne_zero some_unread)
    rw [cell_direct (by simpa using below)] at stored
    exact (Option.some.inj stored).symm
  have moved := advance_holds (n := 1) wrapped (Nat.pos_of_ne_zero some_unread) (by
    show 1 ≤ kbBufSize - (if d.pMouse.pTail = kbBufSize then 0 else d.pMouse.pTail)
    omega)
  refine ⟨_, ?_, ?_, moved⟩
  · simp only [getMousecode, if_neg some_unread, first]
  · show d.pMouse.count - 1 + 1 = d.pMouse.count
    omega

@[simp] theorem decode_pMouse (d : Driver) (x : UInt8) : (decode d x).pMouse = d.pMouse := by
  unfold decode
  split <;> rfl

@[simp] theorem decode_received (d : Driver) (x : UInt8) :
    (decode d x).received = d.received := by
  unfold decode
  split <;> rfl

@[simp] theorem decode_delivered (d : Driver) (x : UInt8) :
    (decode d x).delivered = d.delivered := by
  unfold decode
  split <;> rfl

theorem get_cases {d d' : Driver} {x : UInt8} {unread : List UInt8} (h : Holds d.pMouse unread)
    (got : getMousecode d = some (x, d')) :
    ∃ rest pMouse, unread = x :: rest ∧ Holds pMouse rest ∧ pMouse.count + 1 = d.pMouse.count ∧
      d' = { d with pMouse := pMouse, delivered := d.delivered ++ [x] } := by
  cases unread with
  | nil =>
    have none_unread : d.pMouse.count = 0 := h.counted.symm
    rw [getMousecode, if_pos none_unread] at got
    cases got
  | cons y rest =>
    obtain ⟨pMouse, gets, less, holds⟩ := get_next h
    rw [gets] at got
    cases got
    exact ⟨rest, pMouse, rfl, holds, less, rfl⟩

/- What a call that reads takes from the ring, whether it decodes the byte or not. -/
theorem read_accounted {d d' : Driver} {x : UInt8} (h : Accounted d)
    (got : getMousecode d = some (x, d')) :
    Accounted d' ∧ d'.pMouse.count ≤ kbBufSize := by
  obtain ⟨unread, holds, received⟩ := h
  obtain ⟨rest, pMouse, rfl, left, _, rfl⟩ := get_cases holds got
  exact ⟨⟨rest, left, by simp [received]⟩, left.fits⟩

theorem accounted_survives {d d' : Driver} {e : Event} (h : Accounted d') : Survives d e d' := by
  obtain ⟨unread, holds, received⟩ := h
  refine ⟨holds.fits, ?_⟩
  rw [received]
  exact List.sublist_append_left _ _

theorem decode_accounted {d : Driver} (x : UInt8) (h : Accounted d) : Accounted (decode d x) := by
  unfold Accounted at *
  rw [decode_pMouse, decode_received, decode_delivered]
  exact h

theorem step_accounted {d d' : Driver} {e : Event} (h : Accounted d) (step : Step d e d')
    (room : Room d e) : Accounted d' := by
  cases e with
  | handler x =>
    obtain ⟨unread, holds, received⟩ := h
    cases step
    exact ⟨unread ++ [x], store_holds holds room x, by simp [mouseHandler, received]⟩
  | get =>
    obtain ⟨⟨x, m⟩, got, rfl⟩ := Option.map_eq_some_iff.mp step
    exact (read_accounted h got).1
  | analysis =>
    obtain ⟨⟨x, m⟩, got, rfl⟩ := Option.map_eq_some_iff.mp step
    exact decode_accounted x (read_accounted h got).1

theorem survives_room {d d' : Driver} {e : Event} (step : Step d e d')
    (survives : Survives d e d') : Room d e := by
  cases e with
  | handler x =>
    cases step
    exact survives.1
  | get => trivial
  | analysis => trivial

/-- The ring survives exactly the runs that never store a byte into a full ring. -/
theorem ring_survives_iff (pMouse : KeyboardInputbuffer) (mouse : MousePacket) (es : List Event)
    (d : Driver) :
    Steps (Meeting Survives Step) (mouseInit pMouse mouse) es d ↔
      Steps (Guarded Room Step) (mouseInit pMouse mouse) es d := by
  have exact_ : ∀ s e t, Accounted s → Step s e t → (Survives s e t ↔ Room s e) := by
    intro s e t inv step
    constructor
    · exact survives_room step
    · exact fun room => accounted_survives (step_accounted inv step room)
  have keep : ∀ s e t, Accounted s → Step s e t → Survives s e t → Accounted t :=
    fun s e t inv step survives => step_accounted inv step (survives_room step survives)
  exact steps_meeting_iff exact_ keep (init_accounted pMouse mouse)

def burst : List Event := (List.range 101).map fun i => .handler (UInt8.ofNat i)

def reads : List Event := List.replicate 101 .get

def started : Driver := mouseInit ⟨0, 0, 0, fun _ => 0⟩ ⟨0, 0, 0⟩

def behind (d : Driver) (es : List Event) : Driver := (exec next d es).getD d

theorem steps_behind {d : Driver} {es : List Event} (runs : (exec next d es).isSome = true) :
    Steps Step d es (behind d es) := by
  obtain ⟨d', ran⟩ := Option.isSome_iff_exists.mp runs
  rw [behind, ran]
  exact steps_of_exec ran

/- The last byte of the burst lands on the first, and is delivered first and last. -/
theorem burst_overruns :
    ∃ d d', Steps Step started burst d ∧ kbBufSize < d.pMouse.count ∧
      Steps Step d reads d' ∧ ¬ d'.delivered.Sublist d'.received := by
  have filled : Steps Step started burst (behind started burst) :=
    steps_behind (by decide +kernel)
  have drained : Steps Step (behind started burst) reads (behind (behind started burst) reads) :=
    steps_behind (by decide +kernel)
  have twice : (behind (behind started burst) reads).received.count 100 <
      (behind (behind started burst) reads).delivered.count 100 := by
    decide +kernel
  refine ⟨_, _, filled, by decide +kernel, drained, fun sub => ?_⟩
  have less := sub.count_le 100
  omega

/- Groups of three bytes; what is left of the last group is no packet yet. -/
def packets : List UInt8 → List MousePacket
  | a :: b :: c :: rest => ⟨a, b.toInt8, c.toInt8⟩ :: packets rest
  | _ => []

theorem packets_append {whole : List UInt8} (rest : List UInt8) (groups : 3 ∣ whole.length) :
    packets (whole ++ rest) = packets whole ++ packets rest := by
  induction whole using packets.induct with
  | case1 a b c tail ih =>
    have fewer : 3 ∣ tail.length := by
      simp only [List.length_cons] at groups
      omega
    simp only [List.cons_append, packets, ih fewer]
  | case2 short many =>
    match short with
    | [] => rfl
    | [a] => simp at groups
    | [a, b] => simp at groups
    | a :: b :: c :: tail => exact absurd rfl (many a b c tail)

/- The bytes the decoder has of a packet that is not complete. -/
def Pending (d : Driver) : List UInt8 → Prop
  | [] => d.mouseCount = 1
  | [a] => d.mouseCount = 2 ∧ d.mouse.byte0 = a
  | [a, b] => d.mouseCount = 3 ∧ d.mouse.byte0 = a ∧ d.mouse.byte1 = b.toInt8
  | _ => False

theorem pending_short {d : Driver} {pending : List UInt8} (h : Pending d pending) :
    packets pending = [] := by
  match pending with
  | [] => rfl
  | [_] => rfl
  | [_, _] => rfl
  | _ :: _ :: _ :: _ => exact absurd h id

/-- The decoder between two calls: nothing read yet, or the first byte dropped, whole groups
    reported and the rest pending. -/
inductive Framed (d : Driver) : Prop where
  | fresh (unread : d.delivered = []) (waiting : d.mouseCount = 0) (none_yet : d.reported = [])
  | going (first : UInt8) (whole pending : List UInt8)
      (read : d.delivered = first :: (whole ++ pending)) (groups : 3 ∣ whole.length)
      (printed : d.reported = packets whole) (begun : Pending d pending)

theorem framed_reported {d : Driver} (h : Framed d) : d.reported = packets (d.delivered.drop 1) := by
  cases h with
  | fresh unread waiting none_yet =>
    rw [unread, none_yet]
    rfl
  | going first whole pending read groups printed begun =>
    rw [read, printed, List.drop_one, List.tail_cons, packets_append pending groups,
      pending_short begun, List.append_nil]

theorem decode_framed {d m : Driver} {x : UInt8} (h : Framed d)
    (count : m.mouseCount = d.mouseCount) (packet : m.mouse = d.mouse)
    (reported : m.reported = d.reported) (read : m.delivered = d.delivered ++ [x]) :
    Framed (decode m x) := by
  cases h with
  | fresh unread waiting none_yet =>
    have first : m.mouseCount = 0 := count.trans waiting
    refine .going x [] [] ?_ ⟨0, rfl⟩ ?_ ?_
    · rw [decode_delivered, read, unread]
      rfl
    · simp only [decode, first, reported, none_yet, packets]
    · simp only [decode, first, Pending]
  | going first whole pending old groups printed begun =>
    match pending, begun with
    | [], begun =>
      have one : m.mouseCount = 1 := count.trans begun
      refine .going first whole [x] ?_ groups ?_ ?_
      · simp [read, old]
      · simp only [decode, one, reported, printed]
      · simp only [decode, one, Pending, and_self]
    | [a], ⟨two, byte0⟩ =>
      have two : m.mouseCount = 2 := count.trans two
      refine .going first whole [a, x] ?_ groups ?_ ?_
      · simp [read, old]
      · simp only [decode, two, reported, printed]
      · simp only [decode, two, Pending, packet, byte0, and_self]
    | [a, b], ⟨three, byte0, byte1⟩ =>
      have three : m.mouseCount = 3 := count.trans three
      refine .going first (whole ++ [a, b, x]) [] ?_ ?_ ?_ ?_
      · simp [read, old]
      · rw [List.length_append]
        exact Nat.dvd_add groups ⟨1, rfl⟩
      · rw [packets_append _ groups]
        simp only [decode, three, reported, printed, packet, byte0, byte1, packets]
      · simp only [decode, three, Pending]

/- The kernel's main loop: bytes come in while there is room, and only analysis_mousecode
   takes them out. -/
def Polled (d : Driver) : Event → Prop
  | .handler x => Room d (.handler x)
  | .get => False
  | .analysis => True

instance (d : Driver) (e : Event) : Decidable (Polled d e) := by
  cases e <;> simp only [Polled] <;> infer_instance

theorem step_framed {d d' : Driver} {e : Event} (h : Accounted d ∧ Framed d)
    (step : Guarded Polled Step d e d') : Accounted d' ∧ Framed d' := by
  obtain ⟨accounted, framed⟩ := h
  obtain ⟨step, polled⟩ := step
  cases e with
  | handler x =>
    refine ⟨step_accounted accounted step polled, ?_⟩
    cases step
    cases framed with
    | fresh unread waiting none_yet => exact .fresh unread waiting none_yet
    | going first whole pending read groups printed begun =>
      exact .going first whole pending read groups printed (by
        match pending, begun with
        | [], begun => exact begun
        | [_], begun => exact begun
        | [_, _], begun => exact begun)
  | get => exact absurd polled id
  | analysis =>
    refine ⟨step_accounted accounted step trivial, ?_⟩
    obtain ⟨unread, holds, received⟩ := accounted
    obtain ⟨⟨x, m⟩, got, rfl⟩ := Option.map_eq_some_iff.mp step
    obtain ⟨rest, pMouse, rfl, left, _, rfl⟩ := get_cases holds got
    exact decode_framed framed rfl rfl rfl rfl

theorem init_framed (pMouse : KeyboardInputbuffer) (mouse : MousePacket) :
    Framed (mouseInit pMouse mouse) :=
  .fresh rfl rfl rfl

/-- The packets printed are the groups of three of the bytes read behind the first one: of all
    bytes received but those the ring still holds. -/
theorem packets_reported (pMouse : KeyboardInputbuffer) (mouse : MousePacket) (es : List Event)
    (d : Driver) (run : Steps (Guarded Polled Step) (mouseInit pMouse mouse) es d) :
    d.reported = packets ((d.received.take (d.received.length - d.pMouse.count)).drop 1) ∧
      (d.pMouse.count = 0 → d.reported = packets (d.received.drop 1)) := by
  have start : Accounted (mouseInit pMouse mouse) ∧ Framed (mouseInit pMouse mouse) :=
    ⟨init_accounted pMouse mouse, init_framed pMouse mouse⟩
  obtain ⟨⟨unread, holds, received⟩, framed⟩ :=
    invariant_of_step (fun _ _ _ inv step => step_framed inv step) run start
  have read : d.received.take (d.received.length - d.pMouse.count) = d.delivered := by
    rw [received, ← holds.counted, List.length_append, Nat.add_sub_cancel, List.take_left]
  have reported := framed_reported framed
  rw [← read] at reported
  refine ⟨reported, fun drained => ?_⟩
  rw [reported, drained, Nat.sub_zero, List.take_length]

def onePacket : List Event :=
  [.handler 250, .analysis, .handler 8, .handler 3, .analysis, .analysis, .handler 255, .analysis]

theorem onePacket_run : Steps (Guarded Polled Step) started onePacket (behind started onePacket) :=
  .cons ⟨rfl, by decide⟩ (.cons ⟨rfl, trivial⟩ (.cons ⟨rfl, by decide⟩ (.cons ⟨rfl, by decide⟩
    (.cons ⟨rfl, trivial⟩ (.cons ⟨rfl, trivial⟩ (.cons ⟨rfl, by decide⟩
      (.cons ⟨rfl, trivial⟩ (.nil _))))))))

theorem packets_reported_one : (behind started onePacket).reported = [⟨8, 3, -1⟩] := by
  rw [(packets_reported _ _ _ _ onePacket_run).2 rfl]
  decide

end Mouse

import Q2os.InterruptTable
import Q2os.KernelEntry

/- From the vector of an exception or an interrupt to the function that handles it and back: the
   processor with the table and the stacks that the kernel has set up, and the stubs. -/
namespace InterruptDelivery
open ByteMemory StackMachine ControlFlow EntryFrames KernelEntry InterruptTable
open GateDescriptors (Gate kernelGate)
open Fat32 (setLittle_outside)

instance : WordMemory Memory where
  load := GateDescriptors.load
  store := GateDescriptors.store
  load_same := GateDescriptors.load_store
  load_apart m a b w apart := by
    apply GateDescriptors.load_congr
    intro i inside
    exact setLittle_outside (by omega)

def gateStack (tss : Nat) (g : Gate) (m : Machine Memory) : Word :=
  if g.ist ≠ 0 then load m.memory (tss + 36 + 8 * (g.ist.toNat - 1))
  else if level m = 0 then m.reg .rsp
  else load m.memory (tss + 4)

/- The flags that entering a gate clears: an interrupt gate also those that allow interrupts. -/
def gateClears (g : Gate) : Word := if g.attr.getLsbD 0 then 0x34100 else 0x34300

def deliver (idtTable tss vector : Nat) (error : Option Word) (m : Machine Memory) :
    Machine Memory :=
  let g := gates m.memory idtTable vector
  arrive m g.offset g.selector (gateClears g) (gateStack tss g m) error

def vectorOf : Cause → Nat
  | .exception e => e.vector
  | .interrupt nr => nr.toNat

def HasStub : Cause → Prop
  | .exception _ => True
  | .interrupt nr => (32 ≤ nr.toNat ∧ nr.toNat < 56) ∨ (200 ≤ nr.toNat ∧ nr.toNat < 210)

/- The code at the entry points, as the linker puts it there: the labels of entry.S, and the
   functions that Build_IRQ makes for interrupt and SMP_interrupt. -/
structure Linked (k : Labels) (entry : BitVec 32 → BitVec 64) (interrupt smpInterrupt : Nat → BitVec 64)
    (code : Word → Flow Memory) : Prop where
  exceptions : ∀ e : Exception, code (entry (BitVec.ofNat 32 e.vector)) = k.exceptionEntry e
  interrupts : ∀ i < 24, code (interrupt i) = k.buildIRQ (BitVec.ofNat 64 (32 + i))
  ipis : ∀ i < 10, code (smpInterrupt i) = k.buildIRQ (BitVec.ofNat 64 (200 + i))

theorem interruptInit_call (first count i : Nat) (handlers : Nat → BitVec 64)
    (upper : BitVec 32 → BitVec 56) (within : i < count) (small : first + i < 2 ^ 32) :
    ∃ d ∈ interruptInit first count handlers upper,
      d.n.toNat = first + i ∧ d.ist = 0 ∧ d.addr = handlers i := by
  refine ⟨_, List.mem_map.mpr ⟨i, List.mem_range.mpr within, rfl⟩, ?_, rfl, rfl⟩
  simp only [BitVec.toNat_ofNat]
  exact Nat.mod_eq_of_lt small

theorem sysVectorInit_call (e : Exception) (entry : BitVec 32 → BitVec 64)
    (upper : BitVec 32 → BitVec 56) :
    ∃ d ∈ sysVectorInit entry upper,
      d.n.toNat = e.vector ∧ d.ist = 0 ∧ d.addr = entry (BitVec.ofNat 32 e.vector) := by
  let setter : Setter :=
    if e = .nmi then .intr else if e ∈ [.int3, .overflow, .bounds] then .system else .trap
  refine ⟨⟨setter, BitVec.ofNat 32 e.vector, 0, upper (BitVec.ofNat 32 e.vector),
    entry (BitVec.ofNat 32 e.vector)⟩, ?_, ?_, rfl, rfl⟩
  · cases e <;> simp [setter, sysVectorInit, Exception.vector]
  · cases e <;> rfl

section links
variable {k : Labels} {entry : BitVec 32 → BitVec 64} {interrupt smpInterrupt : Nat → BitVec 64}
  {code : Word → Flow Memory}

theorem call_for (linked : Linked k entry interrupt smpInterrupt code)
    (upper : BitVec 32 → BitVec 56) {c : Cause} (stub : HasStub c) :
    ∃ d ∈ startCalls entry interrupt smpInterrupt upper,
      d.n.toNat = vectorOf c ∧ d.ist = 0 ∧ code d.addr = c.flow k := by
  cases c with
  | exception e =>
    obtain ⟨d, member, vector, ist, addr⟩ := sysVectorInit_call e entry upper
    refine ⟨d, by simp [startCalls, member], vector, ist, ?_⟩
    rw [addr, linked.exceptions]
    rfl
  | interrupt nr =>
    have number (n : Nat) (same : n = nr.toNat) : BitVec.ofNat 64 n = nr := by
      rw [same, BitVec.ofNat_toNat, BitVec.setWidth_eq]
    rcases stub with ⟨low, high⟩ | ⟨low, high⟩
    · have place : 32 + (nr.toNat - 32) = nr.toNat := by omega
      obtain ⟨d, member, vector, ist, addr⟩ := interruptInit_call 32 24 (nr.toNat - 32) interrupt
        upper (by omega) (by omega)
      refine ⟨d, ?_, vector.trans place, ist, ?_⟩
      · simp [startCalls, apicIOAPICInit, member]
      · rw [addr, linked.interrupts _ (by omega), number _ place]
        rfl
    · have place : 200 + (nr.toNat - 200) = nr.toNat := by omega
      obtain ⟨d, member, vector, ist, addr⟩ := interruptInit_call 200 10 (nr.toNat - 200)
        smpInterrupt upper (by omega) (by omega)
      refine ⟨d, ?_, vector.trans place, ist, ?_⟩
      · simp [startCalls, smpInit, member]
      · rw [addr, linked.ipis _ (by omega), number _ place]
        rfl

end links

/- A kernel that has started: where its code was linked to, and the memory and the registers that
   setup_IDT found. -/
structure Started where
  labels : Labels
  entry : BitVec 32 → BitVec 64
  interrupt : Nat → BitVec 64
  smpInterrupt : Nat → BitVec 64
  upper : BitVec 32 → BitVec 56
  code : Word → Flow Memory
  linked : Linked labels entry interrupt smpInterrupt code
  boot : Memory
  idtTable : Nat
  ignoreInt : BitVec 64
  rax : BitVec 64
  rcx : BitVec 64
  tss : Nat

namespace Started
variable (s : Started)

def memory : Memory :=
  (startCalls s.entry s.interrupt s.smpInterrupt s.upper).foldl (Call.run s.idtTable)
    (setupIDT s.boot s.idtTable s.ignoreInt s.rax s.rcx)

def table : Nat → Gate := gates s.memory s.idtTable

theorem table_leads {c : Cause} (stub : HasStub c) :
    s.code (s.table (vectorOf c)).offset = c.flow s.labels ∧
      (s.table (vectorOf c)).selector = 8 ∧ (s.table (vectorOf c)).ist = 0 := by
  obtain ⟨d, member, vector, ist, leads⟩ := call_for s.linked s.upper stub
  have set := (started_gates s.entry s.interrupt s.smpInterrupt s.upper s.boot s.idtTable
    s.ignoreInt s.rax s.rcx).1 d member
  rw [vector] at set
  have gate : s.table (vectorOf c) = d.gate := set
  rw [gate, Call.gate, kernelGate, ist]
  exact ⟨leads, rfl, rfl⟩

/- The stack for a handler: where the kernel's is, or that of the running task from its top on. -/
def handlerStack (m : Machine Memory) : Word :=
  if level m = 0 then m.reg .rsp else load m.memory (s.tss + 4)

def base (m : Machine Memory) : Nat := (frameEnd (s.handlerStack m)).toNat

/- A machine that is interrupted, with the table as it is after the start and with room for the
   handler's frame. -/
structure Takes (region : Region) (c : Cause) (error : Option Word) (m : Machine Memory) : Prop where
  stub : HasStub c
  coded : error.isSome = c.coded
  table : gates m.memory s.idtTable = s.table
  room : region.bottom + 8 * 26 ≤ s.base m
  within : ∀ a, region.bottom ≤ a → a + 8 ≤ s.base m → region.kept a

def arrived (c : Cause) (error : Option Word) (m : Machine Memory) : Machine Memory :=
  deliver s.idtTable s.tss (vectorOf c) error m

variable {s}

theorem arrived_eq {region : Region} {c : Cause} {error : Option Word} {m : Machine Memory}
    (takes : s.Takes region c error m) : ∃ offset clear, s.code offset = c.flow s.labels ∧
      s.arrived c error m = arrive m offset 8 clear (s.handlerStack m) error := by
  obtain ⟨leads, selector, ist⟩ := s.table_leads takes.stub
  rw [← takes.table] at leads selector ist
  refine ⟨(gates m.memory s.idtTable (vectorOf c)).offset,
    gateClears (gates m.memory s.idtTable (vectorOf c)), leads, ?_⟩
  simp only [arrived, deliver, selector, gateStack, ist, handlerStack, ne_eq, not_true_eq_false,
    ↓reduceIte]

variable {status : Instr → Machine Memory → Word}
  {routine : Word → Machine Memory → Machine Memory → Prop}

theorem arrived_handled {region : Region} {c : Cause} {error : Option Word} {m : Machine Memory}
    (takes : s.Takes region c error m) :
    Handled s.labels status routine region m (c.frame s.labels m error) (c.argument error)
      (c.target s.labels) (c.ret s.labels) (s.code (s.arrived c error m).rip) (s.arrived c error m)
      (s.base m) := by
  obtain ⟨offset, clear, leads, same⟩ := arrived_eq takes
  have rip : (s.arrived c error m).rip = offset := congrArg Machine.rip same
  rw [rip, leads, same]
  exact cause_handled c m offset 8 clear (s.handlerStack m) error takes.coded takes.room
    takes.within

end Started

section small

def smallLabels : Labels where
  do_exception e := BitVec.ofNat 64 (0x100 + e.vector)
  do_IRQ := 0x200
  do_softirq := 0x201
  schedule := 0x202
  ret_from_intr := 0x203
  after_exception := 0x204
  after_nmi := 0x205
  after_softirq := 0x206
  after_schedule := 0x207
  softirq_status := 0x8000

def exceptionAt : Nat → Exception
  | 0 => .divide_error
  | 1 => .debug
  | 2 => .nmi
  | 3 => .int3
  | 4 => .overflow
  | 5 => .bounds
  | 6 => .undefined_opcode
  | 7 => .dev_not_available
  | 8 => .double_fault
  | 9 => .coprocessor_segment_overrun
  | 10 => .invalid_TSS
  | 11 => .segment_not_present
  | 12 => .stack_segment_fault
  | 13 => .general_protection
  | 14 => .page_fault
  | 16 => .x87_FPU_error
  | 17 => .alignment_check
  | 18 => .machine_check
  | 19 => .SIMD_exception
  | _ => .virtualization_exception

def smallCode (a : Word) : Flow Memory :=
  if 0x3000 ≤ a.toNat then smallLabels.buildIRQ (BitVec.ofNat 64 (200 + (a.toNat - 0x3000)))
  else if 0x2000 ≤ a.toNat then smallLabels.buildIRQ (BitVec.ofNat 64 (32 + (a.toNat - 0x2000)))
  else smallLabels.exceptionEntry (exceptionAt a.toNat)

def small : Started where
  labels := smallLabels
  entry n := n.setWidth 64
  interrupt i := BitVec.ofNat 64 (0x2000 + i)
  smpInterrupt i := BitVec.ofNat 64 (0x3000 + i)
  upper _ := 0
  code := smallCode
  linked := by
    constructor
    · intro e
      cases e <;> rfl
    · intro i within
      have here : (BitVec.ofNat 64 (0x2000 + i)).toNat = 0x2000 + i := by simp; omega
      simp only [smallCode, here]
      simp [show ¬ 0x3000 ≤ 0x2000 + i by omega]
    · intro i within
      have here : (BitVec.ofNat 64 (0x3000 + i)).toNat = 0x3000 + i := by simp; omega
      simp [smallCode, here]
  boot _ := 0
  idtTable := 0x5000
  ignoreInt := 0x4000
  rax := 0
  rcx := 0
  tss := 0x7000

def smallMachine : Machine Memory where
  reg _ := 0x10000
  seg _ := 8
  rip := 0x400
  rflags := 0x202
  msr _ := 0
  memory := small.memory

theorem small_takes {region : Region} (low : region.bottom = 0xf000) (kept : ∀ a, region.kept a)
    {c : Cause} {error : Option Word} (stub : HasStub c) (coded : error.isSome = c.coded)
    {m : Machine Memory} (same : m.memory = small.memory) (selector : m.seg .cs = 8)
    (stack : m.reg .rsp = 0x10000) : small.Takes region c error m := by
  have kernel : level m = 0 := by simp [level, selector]
  have base : small.base m = 0x10000 := by
    simp [Started.base, Started.handlerStack, kernel, stack, frameEnd]
  refine ⟨stub, coded, by rw [same]; rfl, by rw [low, base]; decide, fun a _ _ => kept a⟩

end small

section system
variable {status : Instr → Machine Memory → Word}
  {routine : Word → Machine Memory → Machine Memory → Prop}

/-- Every exception and interrupt the kernel has a stub for reaches its own handler, with a pt_regs
    that holds the interrupted registers and with the error code or the number as it is. -/
theorem handler_entered (s : Started) {region : Region} {c : Cause} {error : Option Word}
    {m : Machine Memory} (takes : s.Takes region c error m) :
    ∃ m', entered status (s.code (s.arrived c error m).rip) (s.arrived c error m) =
        some (c.target s.labels, m') ∧
      Called m' (c.frame s.labels m error) (c.argument error) (c.ret s.labels) (s.base m) := by
  have handled : Handled s.labels status (fun _ _ _ => False) _ _ _ _ _ _ _ _ _ :=
    Started.arrived_handled takes
  exact handled.1

theorem handler_entered_pageFault : ∃ m',
    entered (fun _ m => m.rflags) (small.code (small.arrived (.exception .page_fault) (some 2)
      smallMachine).rip) (small.arrived (.exception .page_fault) (some 2) smallMachine) =
        some (0x10e, m') ∧
      Called m' (frameOf smallMachine 0x10e 2) 2 0x204 (small.base smallMachine) := by
  have takes : small.Takes ⟨0xf000, fun _ => True⟩ (.exception .page_fault) (some 2) smallMachine :=
    small_takes (c := .exception .page_fault) rfl (fun _ => trivial) trivial rfl rfl rfl rfl
  exact handler_entered small takes

/- With handlers that keep their callers' part of the region, the stub comes back to what was
   interrupted. -/
theorem arrived_resumes (s : Started) {region : Region} {c : Cause} {error : Option Word}
    {m : Machine Memory} (takes : s.Takes region c error m)
    (keeps : ∀ f ∈ [c.target s.labels, s.labels.do_softirq, s.labels.schedule],
      Keeps region (routine f)) :
    Ensures status routine (s.code (s.arrived c error m).rip) (Resumes region (s.base m) m)
      (s.arrived c error m) := by
  have handled : Handled s.labels status routine _ _ _ _ _ _ _ _ _ := Started.arrived_handled takes
  obtain ⟨func, errcode, frame⟩ := frame_of s.labels c m error
  apply ensures_mono (handled.2 keeps)
  intro m' back
  rw [frame] at back
  exact resumes_of_back back

/-- Whatever path leads back from a handler, through the softirqs and the scheduler or past them,
    what was interrupted goes on as it was. -/
theorem interrupted_resumes (s : Started) {region : Region} {c : Cause} {error : Option Word}
    {m : Machine Memory} (takes : s.Takes region c error m)
    (keeps : ∀ f ∈ [c.target s.labels, s.labels.do_softirq, s.labels.schedule],
      Keeps region (routine f)) {out : Option (Machine Memory)}
    (runs : Runs status routine (s.code (s.arrived c error m).rip) (s.arrived c error m) out) :
    ∃ m', out = some m' ∧ Resumes region (s.base m) m m' := by
  exact ensures_run runs (arrived_resumes s takes keeps)

def idle (_ : Word) (m m' : Machine Memory) : Prop := m' = retq m

theorem idle_runs (flow : Flow Memory) (m : Machine Memory) :
    ∃ out, Runs (fun _ m => m.rflags) idle flow m out := by
  apply exists_run
  exact fun _ m => ⟨retq m, rfl⟩

theorem interrupted_resumes_keyboard : ∃ m',
    Runs (fun _ m => m.rflags) idle (small.code (small.arrived (.interrupt 0x21) none
      smallMachine).rip) (small.arrived (.interrupt 0x21) none smallMachine) (some m') ∧
      Resumes ⟨0xf000, fun _ => True⟩ (small.base smallMachine) smallMachine m' := by
  have takes : small.Takes ⟨0xf000, fun _ => True⟩ (.interrupt 0x21) none smallMachine :=
    small_takes (c := .interrupt 0x21) rfl (fun _ => trivial) (.inl (by decide)) rfl rfl rfl rfl
  obtain ⟨out, runs⟩ := idle_runs _ _
  obtain ⟨m', same, resumes⟩ := interrupted_resumes small takes (fun _ _ => retq_keeps _) runs
  exact ⟨m', same ▸ runs, resumes⟩

/- What a program can tell two machines apart by: the registers, and the words of the region outside
   the part of the stack that handlers have for themselves. -/
structure Unseen (region : Region) (top : Nat) (m m' : Machine Memory) : Prop where
  reg : m'.reg = m.reg
  rip : m'.rip = m.rip
  rflags : m'.rflags = m.rflags
  seg : ∀ s ∈ [Seg.cs, .ss, .ds, .es], m'.seg s = m.seg s
  memory : ∀ a, region.kept a → top ≤ a ∨ a + 8 ≤ region.bottom →
    load m'.memory a = load m.memory a

theorem Unseen.trans {region : Region} {top : Nat} {m m' m'' : Machine Memory}
    (first : Unseen region top m m') (second : Unseen region top m' m'') :
    Unseen region top m m'' where
  reg := second.reg.trans first.reg
  rip := second.rip.trans first.rip
  rflags := second.rflags.trans first.rflags
  seg s member := (second.seg s member).trans (first.seg s member)
  memory a kept outside := (second.memory a kept outside).trans (first.memory a kept outside)

theorem Unseen.of_resumes {region : Region} {base top : Nat} {m m' : Machine Memory}
    (below : base ≤ top) (resumes : Resumes region base m m') : Unseen region top m m' :=
  ⟨resumes.reg, resumes.rip, resumes.rflags, resumes.seg, fun a kept outside =>
    resumes.memory a kept (outside.imp_left below.trans)⟩

/- A program's steps with interrupts between them, counted by the program's own steps. -/
inductive Interrupted (s : Started) (status : Instr → Machine Memory → Word)
    (routine : Word → Machine Memory → Machine Memory → Prop) (region : Region) (top : Nat)
    (step : Machine Memory → Machine Memory) (m : Machine Memory) :
    Nat → Machine Memory → Prop where
  | start : Interrupted s status routine region top step m 0 m
  | own {n : Nat} {at_ : Machine Memory} :
      Interrupted s status routine region top step m n at_ →
        Interrupted s status routine region top step m (n + 1) (step at_)
  | interrupt {n : Nat} {at_ back : Machine Memory} (c : Cause) (error : Option Word) :
      Interrupted s status routine region top step m n at_ → s.Takes region c error at_ →
        s.base at_ ≤ top →
        Runs status routine (s.code (s.arrived c error at_).rip) (s.arrived c error at_)
          (some back) →
        Interrupted s status routine region top step m n back

/-- A program cannot tell how often it has been interrupted: whenever exceptions and interrupts
    come between its steps, it is where its own steps alone lead it. -/
theorem interruptions_unseen (s : Started) {region : Region} {top : Nat}
    {step : Machine Memory → Machine Memory}
    (sees : ∀ m m', Unseen region top m m' → Unseen region top (step m) (step m'))
    (keeps : ∀ f, Keeps region (routine f)) {m m' : Machine Memory} {n : Nat}
    (run : Interrupted s status routine region top step m n m') :
    Unseen region top (step^[n] m) m' := by
  induction run with
  | start => exact ⟨rfl, rfl, rfl, fun _ _ => rfl, fun _ _ _ => rfl⟩
  | own _ ih =>
    rw [Function.iterate_succ_apply']
    exact sees _ _ ih
  | interrupt c error _ takes below runs ih =>
    obtain ⟨back, same, resumes⟩ := ensures_run runs (arrived_resumes s takes fun f _ => keeps f)
    cases same
    exact ih.trans (.of_resumes below resumes)

theorem interruptions_unseen_keyboard : ∃ m',
    Interrupted small (fun _ m => m.rflags) idle ⟨0xf000, fun _ => True⟩ 0x10000
      (fun m => m.set .rax (m.reg .rax + 1)) smallMachine 1 m' ∧
      Unseen ⟨0xf000, fun _ => True⟩ 0x10000 (smallMachine.set .rax 0x10001) m' := by
  let step := fun m : Machine Memory => m.set .rax (m.reg .rax + 1)
  have takes : small.Takes ⟨0xf000, fun _ => True⟩ (.interrupt 0x21) none (step smallMachine) :=
    small_takes (c := .interrupt 0x21) rfl (fun _ => trivial) (.inl (by decide)) rfl rfl rfl rfl
  obtain ⟨out, runs⟩ := idle_runs _ _
  obtain ⟨back, rfl, _⟩ := ensures_run runs (arrived_resumes small takes fun _ _ => retq_keeps _)
  have below : small.base (step smallMachine) ≤ 0x10000 := by decide
  have run := Interrupted.interrupt _ _ (.own .start) takes below runs
  have sees (m m' : Machine Memory) (unseen : Unseen ⟨0xf000, fun _ => True⟩ 0x10000 m m') :
      Unseen ⟨0xf000, fun _ => True⟩ 0x10000 (step m) (step m') :=
    ⟨by simp [step, unseen.reg], unseen.rip, unseen.rflags, unseen.seg, unseen.memory⟩
  exact ⟨back, run, interruptions_unseen small sees (fun _ => retq_keeps _) run⟩

end system

end InterruptDelivery

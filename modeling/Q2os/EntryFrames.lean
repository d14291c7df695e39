import Q2os.ControlFlow

/- The stubs that exceptions and interrupts enter the kernel by, and the way back: what they push
   is a pt_regs, which RESTORE_ALL and ret_system_call pop. -/
namespace EntryFrames
open StackMachine ControlFlow
variable {M : Type} [WordMemory M]

/- struct pt_regs, from the top of the stack on. -/
structure PtRegs where
  r15 : Word
  r14 : Word
  r13 : Word
  r12 : Word
  r11 : Word
  r10 : Word
  r9 : Word
  r8 : Word
  rbx : Word
  rcx : Word
  rdx : Word
  rsi : Word
  rdi : Word
  rbp : Word
  ds : Word
  es : Word
  rax : Word
  func : Word
  errcode : Word
  rip : Word
  cs : Word
  rflags : Word
  rsp : Word
  ss : Word
deriving DecidableEq

def saved : List Reg :=
  [.rbp, .rdi, .rsi, .rdx, .rcx, .rbx, .r8, .r9, .r10, .r11, .r12, .r13, .r14, .r15]

def PtRegs.get (p : PtRegs) : Reg → Word
  | .r15 => p.r15
  | .r14 => p.r14
  | .r13 => p.r13
  | .r12 => p.r12
  | .r11 => p.r11
  | .r10 => p.r10
  | .r9 => p.r9
  | .r8 => p.r8
  | .rbx => p.rbx
  | .rcx => p.rcx
  | .rdx => p.rdx
  | .rsi => p.rsi
  | .rdi => p.rdi
  | .rbp => p.rbp
  | .rax => p.rax
  | .rsp => p.rsp

/- The words of a pt_regs: those that every stub pushes, and the others above them. -/
def PtRegs.pushed (p : PtRegs) : List Word :=
  [p.r15, p.r14, p.r13, p.r12, p.r11, p.r10, p.r9, p.r8, p.rbx, p.rcx, p.rdx, p.rsi, p.rdi, p.rbp,
    p.ds, p.es, p.rax]

def PtRegs.above (p : PtRegs) : List Word :=
  [p.func, p.errcode, p.rip, p.cs, p.rflags, p.rsp, p.ss]

def PtRegs.words (p : PtRegs) : List Word := p.pushed ++ p.above

theorem exists_words (ws : List Word) (length : ws.length = 24) : ∃ p : PtRegs, p.words = ws := by
  match ws, length with
  | [r15, r14, r13, r12, r11, r10, r9, r8, rbx, rcx, rdx, rsi, rdi, rbp, ds, es, rax, func,
      errcode, rip, cs, rflags, rsp, ss], _ =>
    exact ⟨⟨r15, r14, r13, r12, r11, r10, r9, r8, rbx, rcx, rdx, rsi, rdi, rbp, ds, es, rax, func,
      errcode, rip, cs, rflags, rsp, ss⟩, rfl⟩

theorem words_injective {p q : PtRegs} (same : p.words = q.words) : p = q := by
  obtain ⟨⟩ := p
  obtain ⟨⟩ := q
  simp only [PtRegs.words, PtRegs.pushed, PtRegs.above, List.cons_append, List.nil_append,
    List.cons.injEq, and_true] at same
  simpa only [PtRegs.mk.injEq] using same

theorem exists_saved (reg : Reg → Word) (seg : Seg → BitVec 16) (ws : List Word)
    (length : ws.length = 7) : ∃ p : PtRegs, p.above = ws ∧ (∀ r, r ≠ .rsp → p.get r = reg r) ∧
      p.ds = (seg .ds).setWidth 64 ∧ p.es = (seg .es).setWidth 64 := by
  match ws, length with
  | [func, errcode, rip, cs, rflags, rsp, ss], _ =>
    refine ⟨⟨reg .r15, reg .r14, reg .r13, reg .r12, reg .r11, reg .r10, reg .r9, reg .r8,
      reg .rbx, reg .rcx, reg .rdx, reg .rsi, reg .rdi, reg .rbp, (seg .ds).setWidth 64,
      (seg .es).setWidth 64, reg .rax, func, errcode, rip, cs, rflags, rsp, ss⟩, rfl, ?_, rfl, rfl⟩
    intro r other
    cases r <;> first | exact absurd rfl other | rfl

def pushRegs : List Instr :=
  [.push .rax, .fromSeg .es .rax, .push .rax, .fromSeg .ds .rax, .push .rax, .xor .rax .rax] ++
    saved.map .push

def popRegs : List Instr :=
  saved.reverse.map .pop ++
    [.pop .rax, .toSeg .rax .ds, .pop .rax, .toSeg .rax .es, .pop .rax]

inductive Exception where
  | divide_error | debug | nmi | int3 | overflow | bounds | undefined_opcode | dev_not_available
  | double_fault | coprocessor_segment_overrun | invalid_TSS | segment_not_present
  | stack_segment_fault | general_protection | page_fault | x87_FPU_error | alignment_check
  | machine_check | SIMD_exception | virtualization_exception
deriving DecidableEq

structure Labels where
  do_exception : Exception → Word
  do_IRQ : Word
  do_softirq : Word
  schedule : Word
  ret_from_intr : Word
  after_exception : Word
  after_nmi : Word
  after_softirq : Word
  after_schedule : Word
  softirq_status : Nat

namespace Labels
variable (k : Labels)

def restoreAll : Flow M := .run (popRegs ++ [.add 0x10 .rsp]) (.leave iretq)

def getCurrent (reg : Reg) : List Instr := [.movImm (-32768) reg, .and .rsp reg]

def reschedule : Flow M := call (fun _ => k.schedule) k.after_schedule restoreAll

/- What ret_from_intr and softirq_handler end with: the checks of preempt_count and of
   NEED_SCHEDULE in the task that the stack belongs to. -/
def trySchedule : Flow M :=
  .run (getCurrent .rbx ++ [.load 0x10 .rbx .rcx]) <|
    .branch (fun m => m.reg .rcx ≠ 0) restoreAll <|
      .run [.load 0x08 .rbx .rcx] <|
        .branch (fun m => m.reg .rcx &&& 2 ≠ 0) k.reschedule restoreAll

def softirqHandler : Flow M := call (fun _ => k.do_softirq) k.after_softirq k.trySchedule

def retFromIntr : Flow M :=
  .run [.movImm (-1) .rcx] <|
    .branch (fun m => load m.memory k.softirq_status &&& m.reg .rcx ≠ 0) k.softirqHandler
      k.trySchedule

def errorCodeCode : List Instr :=
  pushRegs ++ [.cld, .load 0x90 .rsp .rsi, .load 0x88 .rsp .rdx, .movImm 0x10 .rdi,
    .toSeg .rdi .ds, .toSeg .rdi .es, .mov .rsp .rdi]

def errorCode : Flow M :=
  .run errorCodeCode <| call (fun m => m.reg .rdx) k.after_exception k.retFromIntr

/- The stubs of exceptions that the processor pushes an error code for, and of those that it pushes
   none for. -/
def coded (e : Exception) : Flow M :=
  .run [.push .rax, .movImm (k.do_exception e) .rax, .xchgTop .rax] k.errorCode

def uncoded (e : Exception) : Flow M :=
  .run [.pushImm 0, .push .rax, .movImm (k.do_exception e) .rax, .xchgTop .rax] k.errorCode

def divideError : Flow M := k.uncoded .divide_error
def debug : Flow M := k.uncoded .debug
def int3 : Flow M := k.uncoded .int3
def overflow : Flow M := k.uncoded .overflow
def bounds : Flow M := k.uncoded .bounds
def undefinedOpcode : Flow M := k.uncoded .undefined_opcode
def devNotAvailable : Flow M := k.uncoded .dev_not_available
def doubleFault : Flow M := k.coded .double_fault
def coprocessorSegmentOverrun : Flow M := k.uncoded .coprocessor_segment_overrun
def invalidTSS : Flow M := k.coded .invalid_TSS
def segmentNotPresent : Flow M := k.coded .segment_not_present
def stackSegmentFault : Flow M := k.coded .stack_segment_fault
def generalProtection : Flow M := k.coded .general_protection
def pageFault : Flow M := k.coded .page_fault
def x87FPUError : Flow M := k.uncoded .x87_FPU_error
def alignmentCheck : Flow M := k.coded .alignment_check
def machineCheck : Flow M := k.uncoded .machine_check
def simdException : Flow M := k.uncoded .SIMD_exception
def virtualizationException : Flow M := k.uncoded .virtualization_exception

/- The stub of the non-maskable interrupt goes its own way. -/
def nmiCode : List Instr :=
  [.push .rax, .cld, .push .rax] ++ pushRegs ++
    [.movImm 0x10 .rdx, .toSeg .rdx .ds, .toSeg .rdx .es, .movImm 0 .rsi, .mov .rsp .rdi]

def nmi : Flow M :=
  .run nmiCode <| call (fun _ => k.do_exception .nmi) k.after_nmi restoreAll

def saveAll : List Instr :=
  [.cld, .push .rax] ++ pushRegs ++ [.movImm 0x10 .rdx, .toSeg .rdx .ds, .toSeg .rdx .es]

def irqCode (nr : Word) : List Instr :=
  [.pushImm 0] ++ saveAll ++
    [.mov .rsp .rdi, .movImm k.ret_from_intr .rax, .push .rax, .movImm nr .rsi]

def buildIRQ (nr : Word) : Flow M :=
  .run (k.irqCode nr) <| .enter (fun _ => k.do_IRQ) k.ret_from_intr k.retFromIntr

def exceptionEntry : Exception → Flow M
  | .divide_error => k.divideError
  | .debug => k.debug
  | .nmi => k.nmi
  | .int3 => k.int3
  | .overflow => k.overflow
  | .bounds => k.bounds
  | .undefined_opcode => k.undefinedOpcode
  | .dev_not_available => k.devNotAvailable
  | .double_fault => k.doubleFault
  | .coprocessor_segment_overrun => k.coprocessorSegmentOverrun
  | .invalid_TSS => k.invalidTSS
  | .segment_not_present => k.segmentNotPresent
  | .stack_segment_fault => k.stackSegmentFault
  | .general_protection => k.generalProtection
  | .page_fault => k.pageFault
  | .x87_FPU_error => k.x87FPUError
  | .alignment_check => k.alignmentCheck
  | .machine_check => k.machineCheck
  | .SIMD_exception => k.simdException
  | .virtualization_exception => k.virtualizationException

end Labels

def Exception.vector : Exception → Nat
  | .divide_error => 0
  | .debug => 1
  | .nmi => 2
  | .int3 => 3
  | .overflow => 4
  | .bounds => 5
  | .undefined_opcode => 6
  | .dev_not_available => 7
  | .double_fault => 8
  | .coprocessor_segment_overrun => 9
  | .invalid_TSS => 10
  | .segment_not_present => 11
  | .stack_segment_fault => 12
  | .general_protection => 13
  | .page_fault => 14
  | .x87_FPU_error => 16
  | .alignment_check => 17
  | .machine_check => 18
  | .SIMD_exception => 19
  | .virtualization_exception => 20

def pushesCode (vector : Nat) : Bool := vector ∈ [8, 10, 11, 12, 13, 14, 17, 21]

section views
variable (seg : Seg → BitVec 16) (stack : List Word) (high : Nat)

theorem pushed_saved (p : PtRegs) :
    p.pushed = saved.reverse.map p.get ++ [p.ds, p.es, p.rax] := rfl

structure PtRegs.Saves (p : PtRegs) (reg : Reg → Word) (seg : Seg → BitVec 16) : Prop where
  reg : ∀ r, r ≠ .rsp → p.get r = reg r
  ds : p.ds = (seg .ds).setWidth 64
  es : p.es = (seg .es).setWidth 64

theorem run_pushRegs {p : PtRegs} {reg : Reg → Word} {seg : Seg → BitVec 16} (room : Nat)
    (saves : p.Saves reg seg) :
    View.run pushRegs ⟨reg, seg, stack, high, room + 17⟩ =
      some ⟨Function.update reg .rax 0, seg, p.pushed ++ stack, high, room⟩ := by
  have first : View.run [.push .rax, .fromSeg .es .rax, .push .rax, .fromSeg .ds .rax, .push .rax,
      .xor .rax .rax] ⟨reg, seg, stack, high, room + 17⟩ =
      some ⟨Function.update reg .rax 0, seg, p.ds :: p.es :: p.rax :: stack, high, room + 14⟩ := by
    have rax : p.rax = reg .rax := saves.reg .rax (by decide)
    simp [View.run, View.exec, View.push, View.get, View.set, saves.ds, saves.es, rax]
  have values : saved.map (Function.update reg .rax 0) = saved.map p.get := by
    apply List.map_congr_left
    intro r member
    have not_rax : r ≠ .rax := by
      rintro rfl
      exact absurd member (by decide)
    have not_sp : r ≠ .rsp := by
      rintro rfl
      exact absurd member (by decide)
    rw [Function.update_of_ne not_rax, saves.reg r not_sp]
  rw [pushRegs, View.run_append, first, Option.bind_some,
    View.run_pushes saved room _ (by decide) rfl]
  simp only [values, pushed_saved, List.map_reverse, List.append_assoc, List.cons_append,
    List.nil_append]

theorem run_popRegs (p : PtRegs) (reg : Reg → Word) (room : Nat) :
    ∃ v : View, View.run popRegs ⟨reg, seg, p.pushed ++ stack, high, room⟩ = some v ∧
      (∀ r, r ≠ .rsp → v.reg r = p.get r) ∧
      v.seg = Function.update (Function.update seg .ds (p.ds.setWidth 16)) .es (p.es.setWidth 16) ∧
      v.stack = stack ∧ v.high = high ∧ v.room = room := by
  have popped := View.run_pops saved.reverse p.get (p.ds :: p.es :: p.rax :: stack)
    ⟨reg, seg, p.pushed ++ stack, high, room⟩ (by decide) (by simp [pushed_saved])
  refine ⟨_, by rw [popRegs, View.run_append, popped]; rfl, ?_, rfl, rfl, rfl, rfl⟩
  intro r other
  cases r <;> first | exact absurd rfl other | rfl

end views

end EntryFrames

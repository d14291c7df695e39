import Q2os.InterruptDelivery

/- A system call from the user's stub through sysenter, system_call and ret_system_call and back. -/
namespace SystemCalls
open StackMachine ControlFlow EntryFrames KernelEntry
variable {M : Type} [WordMemory M]

structure CallLabels where
  system_call : Word
  system_call_table : Word
  after_call : Word
  sysexit_return_address : Word
  errno : Nat

namespace CallLabels
variable (l : CallLabels)

def retSystemCallCode : List Instr :=
  popRegs ++ [.add 0x38 .rsp, .xchg .rdx .r10, .xchg .rcx .r11, .sti]

def retSystemCall (exit : Flow M) : Flow M := .run retSystemCallCode exit

def systemCallCode : List Instr :=
  [.cld] ++ pushRegs ++ [.movImm 0x10 .rdx, .toSeg .rdx .ds, .toSeg .rdx .es, .load 0x80 .rsp .rax,
    .movImm l.system_call_table .rbx]

def systemCall (exit : Flow M) : Flow M :=
  .run [.sub 0x38 .rsp] <| .run l.systemCallCode <|
    call (fun m => load m.memory (m.reg .rbx + 8 * m.reg .rax).toNat) l.after_call <|
      .run [.store .rax 0x80 .rsp] <| retSystemCall exit

/- What LABEL_SYSCALL does after the call: an error becomes -1, with its number in errno. -/
def labelSyscallRet : Flow M :=
  .run [.xchg .rdx .r10, .xchg .rcx .r11, .pop .r11, .pop .r10] <|
    .branch (fun m => (m.reg .rax).toNat < (-0x1000 : Word).toNat) (.leave retq) <|
      .run [.put .rax l.errno, .orImm (-1) .rax] <| .leave retq

/- SYSFUNC_DEF and LABEL_SYSCALL, with the kernel between them. -/
def sysfunc (nr : Word) : Flow M :=
  .run [.movImm nr .rax, .push .r10, .push .r11, .movImm l.sysexit_return_address .r10,
    .mov .rsp .r11] <|
    .pass sysenter l.system_call <| l.systemCall <|
      .pass sysexit l.sysexit_return_address l.labelSyscallRet

end CallLabels

def sysReg (p : PtRegs) : Reg → Word
  | .rdx => p.r10
  | .r10 => p.rdx
  | .rcx => p.r11
  | .r11 => p.rcx
  | .rsp => p.r11
  | r => p.get r

structure UserBack (p : PtRegs) (kernelCs : BitVec 16) (m : Machine M) : Prop where
  reg : m.reg = sysReg p
  rip : m.rip = p.r10
  ds : m.seg .ds = p.ds.setWidth 16
  es : m.seg .es = p.es.setWidth 16
  cs : m.seg .cs = (kernelCs + 32) ||| 3
  ss : m.seg .ss = (kernelCs + 40) ||| 3

section back
variable {status : Instr → Machine M → Word} {routine : Word → Machine M → Machine M → Prop}
  {region : Region} {before m : Machine M} {v : View} {p : PtRegs}

theorem run_retSystemCall (reg : Reg → Word) (seg : Seg → BitVec 16) (high room : Nat) :
    ∃ regs segs, View.run CallLabels.retSystemCallCode ⟨reg, seg, p.words, high, room⟩ =
        some ⟨regs, segs, [], high, room⟩ ∧
      (∀ r, r ≠ .rsp → regs r = sysReg p r) ∧ segs .ds = p.ds.setWidth 16 ∧
      segs .es = p.es.setWidth 16 := by
  obtain ⟨⟨regs, segs, _, _, _⟩, popped, values, rfl, rfl, rfl, rfl⟩ :=
    run_popRegs seg p.above high p reg room
  refine ⟨_, _, by rw [CallLabels.retSystemCallCode, View.run_append, PtRegs.words, popped]; rfl,
    ?_, rfl, rfl⟩
  intro r other
  have value := values r other
  cases r <;> first
    | exact absurd rfl other
    | exact values .r10 (by decide)
    | exact values .rdx (by decide)
    | exact values .r11 (by decide)
    | exact values .rcx (by decide)
    | exact value

theorem retSystemCall_ensures {exit : Flow M} {post : Machine M → Prop}
    (holds : Holds region before m v) (frame : v.stack = p.words)
    (next : ∀ m', UserBack p ((m.msr 0x174).setWidth 16) (sysexit m') → m'.msr = m.msr →
      Holds region before m' { v with reg := m'.reg, seg := m'.seg, stack := [] } →
      Ensures status routine exit post m') :
    Ensures status routine (CallLabels.retSystemCall exit) post m := by
  obtain ⟨reg, seg, _, high, room⟩ := v
  subst frame
  obtain ⟨regs, segs, ran, values, ds, es⟩ := run_retSystemCall (p := p) reg seg high room
  have ready : Holds region before (run status CallLabels.retSystemCallCode m) _ :=
    holds.run _ ran
  have msr : (run status CallLabels.retSystemCallCode m).msr = m.msr := run_msr _ m
  have value (r : Reg) (other : r ≠ .rsp) := (ready.shows.reg r other).trans (values r other)
  have seg_same := ready.shows.seg
  refine next _ ?_ msr ready.own
  constructor
  · funext r
    by_cases stack_pointer : r = .rsp
    · subst stack_pointer
      exact value .rcx (by decide)
    · show Function.update _ _ _ r = _
      rw [Function.update_of_ne stack_pointer]
      exact value r stack_pointer
  · exact value .rdx (by decide)
  · exact (congrFun seg_same .ds).trans ds
  · exact (congrFun seg_same .es).trans es
  · simp [sysexit]
  · simp [sysexit]

end back

/- A function of system_call_table as it is entered: the registers that the caller passes its
   arguments in are as they were, but for the third, that system_call overwrites. -/
structure SysCalled (p : PtRegs) (ret : Word) (high : Nat) (m : Machine M) : Prop where
  arguments : ∀ r ∈ [Reg.rdi, .rsi, .rcx, .r8, .r9], m.reg r = p.get r
  third : m.reg .rdx = 0x10
  frame : Words m.memory (high - 192) p.words
  top : m.top = ret
  sp : m.sp + 200 = high

section call
variable {l : CallLabels} {status : Instr → Machine M → Word}
  {routine : Word → Machine M → Machine M → Prop} {region : Region} {m : Machine M}
  {reg : Reg → Word} {seg : Seg → BitVec 16} {p : PtRegs} {high room : Nat}

theorem run_systemCall (saves : p.Saves reg seg) :
    ∃ regs segs, View.run l.systemCallCode ⟨reg, seg, p.above, high, room + 17⟩ =
        some ⟨regs, segs, p.words, high, room⟩ ∧ regs .rax = p.rax ∧
      regs .rbx = l.system_call_table ∧ regs .rdx = 0x10 ∧
      ∀ r ∈ [Reg.rdi, .rsi, .rcx, .r8, .r9], regs r = p.get r := by
  have parts : l.systemCallCode = [.cld] ++ (pushRegs ++ [.movImm 0x10 .rdx, .toSeg .rdx .ds,
    .toSeg .rdx .es, .load 0x80 .rsp .rax, .movImm l.system_call_table .rbx]) := rfl
  have first : View.run [.cld] ⟨reg, seg, p.above, high, room + 17⟩ =
    some ⟨reg, seg, p.above, high, room + 17⟩ := rfl
  refine ⟨_, _, by rw [parts, View.run_append, first, Option.bind_some, View.run_append,
    run_pushRegs p.above high room saves]; rfl, rfl, rfl, rfl, ?_⟩
  intro r member
  have value := saves.reg r (by rintro rfl; simp at member)
  simp only [List.mem_cons, List.not_mem_nil, or_false] at member
  rcases member with rfl | rfl | rfl | rfl | rfl <;> exact value.symm

def entersCall (l : CallLabels) (status : Instr → Machine M → Word) (m : Machine M) : Machine M :=
  run status [.pushImm l.after_call]
    (run status l.systemCallCode (run status [.sub 0x38 .rsp] m))

theorem entersCall_holds (l : CallLabels) (status : Instr → Machine M → Word) {bottom : Nat}
    (shows : Shows m ⟨reg, seg, [], high, room + 25⟩)
    (enough : bottom + 8 * (room + 25) ≤ high) : ∃ p : PtRegs, p.Saves reg seg ∧
      ∃ regs segs, Holds ⟨bottom, fun _ => True⟩ m (entersCall l status m)
        ⟨regs, segs, l.after_call :: p.words, high, room⟩ ∧ regs .rax = p.rax ∧
          regs .rbx = l.system_call_table ∧ regs .rdx = 0x10 ∧
          ∀ r ∈ [Reg.rdi, .rsi, .rcx, .r8, .r9], regs r = p.get r := by
  have all : Holds ⟨bottom, fun _ => True⟩ m m ⟨reg, seg, [], high, room + 25⟩ := by
    refine ⟨shows, ?_, fun _ _ _ => trivial, fun _ _ _ => rfl⟩
    show bottom ≤ high - 8 * (0 + (room + 25))
    omega
  obtain ⟨ws, length, reserved⟩ := all.reserve (n := 7) (Nat.le_add_left 7 _)
    (status (.sub 0x38 .rsp) m)
  obtain ⟨p, rfl, values, ds, es⟩ := exists_saved reg seg ws length
  have saves : p.Saves reg seg := ⟨values, ds, es⟩
  obtain ⟨regs, segs, ran, known⟩ := run_systemCall (l := l) (p := p) saves
  have pushed : View.run [.pushImm l.after_call] ⟨regs, segs, p.words, high, room + 1⟩ =
      some ⟨regs, segs, l.after_call :: p.words, high, room⟩ := rfl
  rw [List.append_nil] at reserved
  have called : Holds _ m (run status _ (run status _ _)) _ := (reserved.run _ ran).run _ pushed
  exact ⟨p, saves, regs, segs, called, known⟩

theorem systemCall_iff {exit : Flow M} {post : Machine M → Prop} :
    Ensures status routine (l.systemCall exit) post m ↔
      ∀ c, routine (load (entersCall l status m).memory
          ((entersCall l status m).reg .rbx + 8 * (entersCall l status m).reg .rax).toNat)
          (entersCall l status m) c →
        c.rip = l.after_call ∧
          Ensures status routine (CallLabels.retSystemCall exit) post
            (run status [.store .rax 0x80 .rsp] c) := Iff.rfl

section returned
variable {b c : Machine M} {f : Word} {regs : Reg → Word} {segs : Seg → BitVec 16}

theorem call_returned (called : Holds ⟨region.bottom, fun _ => True⟩ m b
      ⟨regs, segs, l.after_call :: p.words, high, room⟩)
    (within : ∀ a, region.bottom ≤ a → a + 200 ≤ high → region.kept a)
    (keeps : Keeps region (routine f)) (returned : routine f b c) :
    c.rip = l.after_call ∧ Holds region b c ⟨c.reg, c.seg, [], high - 192, room + 1⟩ := by
  have length : p.words.length = 24 := rfl
  have bottom := called.bottom
  simp only [View.low, List.length_cons, length] at bottom
  have lowered : Holds region b b ⟨regs, segs, [l.after_call], high - 192, room⟩ := by
    have shown := called.shows.lower (List.singleton_append (x := l.after_call) (l := p.words)).symm
    refine ⟨shown, ?_, ?_, fun _ _ _ => rfl⟩
    · show region.bottom ≤ high - 192 - 8 * (1 + room)
      omega
    · intro a low below
      have beneath : a + 8 ≤ high - 192 := below
      exact within a low (by omega)
  exact lowered.returns keeps returned rfl

theorem result_stored (status : Instr → Machine M → Word)
    (after : Holds region b c ⟨c.reg, c.seg, [], high - 192, room + 1⟩)
    (bound : high < 2 ^ 64) (large : region.bottom + 8 * (room + 25) ≤ high) :
    ∃ p' : PtRegs, Words c.memory (high - 192) p'.words ∧
      Holds ⟨region.bottom, fun _ => True⟩ c (run status [.store .rax 0x80 .rsp] c)
        ⟨c.reg, c.seg, { p' with rax := c.reg .rax }.words, high, room + 1⟩ := by
  obtain ⟨ws, length, words⟩ := StackMachine.exists_words c.memory (high - 192) 24
  obtain ⟨p', rfl⟩ := EntryFrames.exists_words ws length
  have ends : high - 192 + 8 * p'.words.length = high := by
    rw [length]
    omega
  have raised := after.shows.raise words (by rw [ends]; exact bound)
  simp only [ends, List.nil_append] at raised
  have whole : Holds ⟨region.bottom, fun _ => True⟩ c c
      ⟨c.reg, c.seg, p'.words, high, room + 1⟩ := by
    refine ⟨raised, ?_, fun _ _ _ => trivial, fun _ _ _ => rfl⟩
    show region.bottom ≤ high - 8 * (p'.words.length + (room + 1))
    rw [length]
    omega
  exact ⟨p', words, whole.run _ rfl⟩

end returned

/- A call through the table, by what the function leaves in rax and in the pt_regs. -/
theorem systemCall_ensures {exit : Flow M} {post : Machine M → Prop} {f : Word}
    (shows : Shows m ⟨reg, seg, [], high, room + 25⟩)
    (bottom : region.bottom + 8 * (room + 25) ≤ high)
    (within : ∀ a, region.bottom ≤ a → a + 200 ≤ high → region.kept a)
    (entry : load m.memory (l.system_call_table + 8 * reg .rax).toNat = f)
    (apart : high ≤ (l.system_call_table + 8 * reg .rax).toNat ∨
      (l.system_call_table + 8 * reg .rax).toNat + 8 ≤ region.bottom)
    (keeps : Keeps region (routine f))
    (next : ∀ (p p' : PtRegs) (b c m' : Machine M), p.Saves reg seg →
      SysCalled p l.after_call high b → routine f b c → b.msr = m.msr →
      Words c.memory (high - 192) p'.words →
      UserBack { p' with rax := c.reg .rax } ((c.msr 0x174).setWidth 16) (sysexit m') →
      m'.msr = c.msr →
      (∀ a, region.kept a → high - 192 ≤ a → load c.memory a = load b.memory a) →
      (∀ a, region.kept a → high ≤ a ∨ a + 8 ≤ region.bottom →
        load m'.memory a = load m.memory a) →
      Ensures status routine exit post m') :
    Ensures status routine (l.systemCall exit) post m := by
  obtain ⟨p, saves, regs, segs, called, rax, rbx, rdx, arguments⟩ :=
    entersCall_holds l status shows bottom
  have target : load (entersCall l status m).memory
      ((entersCall l status m).reg .rbx + 8 * (entersCall l status m).reg .rax).toNat = f := by
    have number : (entersCall l status m).reg .rax = reg .rax :=
      (called.shows.reg .rax (by decide)).trans (rax.trans (saves.reg .rax (by decide)))
    have table : (entersCall l status m).reg .rbx = l.system_call_table :=
      (called.shows.reg .rbx (by decide)).trans rbx
    rw [number, table, ← entry]
    exact called.kept _ trivial apart
  rw [systemCall_iff, target]
  intro c returned
  obtain ⟨back, after⟩ := call_returned called within keeps returned
  obtain ⟨p', words, stored⟩ := result_stored status after called.shows.bound bottom
  have entered : SysCalled p l.after_call high (entersCall l status m) := by
    have shown := called.shows
    have ends : (entersCall l status m).sp + 8 * 25 = high := shown.ends
    have place : (entersCall l status m).sp + 8 = high - 192 := by omega
    constructor
    · intro r member
      have general : r ≠ .rsp := by
        rintro rfl
        simp at member
      exact (shown.reg r general).trans (arguments r member)
    · exact (shown.reg .rdx (by decide)).trans rdx
    · exact place ▸ shown.words.2
    · exact shown.words.1
    · omega
  refine ⟨back, retSystemCall_ensures stored rfl fun m' user msr kept => ?_⟩
  have same_msr : (entersCall l status m).msr = m.msr := by simp [entersCall]
  rw [run_msr] at user msr
  refine next p p' _ c m' saves entered returned same_msr words user msr ?_ ?_
  · exact fun a member above => after.kept a member (.inl above)
  · intro a member outside
    have beyond : high - 192 ≤ a ∨ a + 8 ≤ region.bottom := by omega
    exact (kept.kept a trivial outside).trans ((after.kept a member beyond).trans
      (called.kept a trivial outside))

end call

def kernelTop (m : Machine M) : Nat := (m.msr 0x175).toNat

/- A user's call of a function that the table has for a number: the kernel as task_init and the
   scheduler leave it, and a user's stack with two words to spare. -/
structure Callable (l : CallLabels) (region : Region) (nr f : Word) (m : Machine M) : Prop where
  cs : m.seg .cs = 0x2b
  ss : m.seg .ss = 0x33
  kernelCs : m.msr 0x174 = 8
  entry : m.msr 0x176 = l.system_call
  low : 16 ≤ m.sp
  high : m.sp + 8 < 2 ^ 64
  stack : ∀ a, m.sp ≤ a + 16 → a ≤ m.sp →
    region.kept a ∧ (kernelTop m ≤ a ∨ a + 8 ≤ region.bottom)
  errno : l.errno + 8 ≤ m.sp ∨ m.sp + 8 ≤ l.errno
  room : region.bottom + 8 * 25 ≤ kernelTop m
  within : ∀ a, region.bottom ≤ a → a + 8 ≤ kernelTop m → region.kept a
  table : load m.memory (l.system_call_table + 8 * nr).toNat = f
  tableKernel : kernelTop m ≤ (l.system_call_table + 8 * nr).toNat ∨
    (l.system_call_table + 8 * nr).toNat + 8 ≤ region.bottom
  tableUser : (l.system_call_table + 8 * nr).toNat + 24 ≤ m.sp ∨
    m.sp + 8 ≤ (l.system_call_table + 8 * nr).toNat

/- No error number: what a system call returns as it is. -/
def Succeeds (result : Word) : Prop := result.toNat < (-0x1000 : Word).toNat

instance (result : Word) : Decidable (Succeeds result) :=
  inferInstanceAs (Decidable (result.toNat < (-0x1000 : Word).toNat))

/- What the user sees of a call when it has returned. -/
structure Returned (l : CallLabels) (region : Region) (result : Word) (m m' : Machine M) :
    Prop where
  rip : m'.rip = m.top
  rax : m'.reg .rax = if Succeeds result then result else -1
  rsp : m'.reg .rsp = m.reg .rsp + 8
  reg : ∀ r, r ≠ .rax → r ≠ .rsp → m'.reg r = m.reg r
  seg : ∀ s ∈ [Seg.cs, .ss, .ds, .es], m'.seg s = m.seg s
  errno : ¬ Succeeds result → load m'.memory l.errno = result
  memory : ∀ a, region.kept a → kernelTop m ≤ a ∨ a + 8 ≤ region.bottom →
    a + 24 ≤ m.sp ∨ m.sp + 8 ≤ a → a + 8 ≤ l.errno ∨ l.errno + 8 ≤ a ∨ Succeeds result →
    load m'.memory a = load m.memory a

section user
variable {l : CallLabels} {status : Instr → Machine M → Word}
  {routine : Word → Machine M → Machine M → Prop} {region : Region} {m : Machine M} {nr f : Word}

def callReg (l : CallLabels) (m : Machine M) (nr : Word) : Reg → Word
  | .rax => nr
  | .r10 => l.sysexit_return_address
  | .r11 => BitVec.ofNat 64 (m.sp - 16)
  | r => m.reg r

def callCode (l : CallLabels) (nr : Word) : List Instr :=
  [.movImm nr .rax, .push .r10, .push .r11, .movImm l.sysexit_return_address .r10,
    .mov .rsp .r11]

theorem user_shows (m : Machine M) (low : 16 ≤ m.sp) (high : m.sp + 8 < 2 ^ 64) :
    Shows m ⟨m.reg, m.seg, [m.top], m.sp + 8, 2⟩ :=
  ⟨fun _ _ => rfl, rfl, ⟨rfl, trivial⟩, rfl, high, low⟩

theorem callCode_shows (low : 16 ≤ m.sp) (high : m.sp + 8 < 2 ^ 64) :
    Shows (run status (callCode l nr) m)
      ⟨callReg l m nr, m.seg, [m.reg .r11, m.reg .r10, m.top], m.sp + 8, 0⟩ := by
  obtain ⟨regs, ran, values⟩ : ∃ regs, View.run (callCode l nr)
      ⟨m.reg, m.seg, [m.top], m.sp + 8, 2⟩ =
        some ⟨regs, m.seg, [m.reg .r11, m.reg .r10, m.top], m.sp + 8, 0⟩ ∧
      ∀ r, regs r = callReg l m nr r := by
    refine ⟨_, rfl, fun r => ?_⟩
    cases r <;> rfl
  have shows : Shows (run status (callCode l nr) m) _ := (user_shows m low high).run _ ran
  exact ⟨fun r other => (shows.reg r other).trans (values r), shows.seg, shows.words, shows.ends,
    shows.bound, shows.room⟩

def backReg (reg : Reg → Word) (r11 r10 : Word) : Reg → Word
  | .rdx => reg .r10
  | .rcx => reg .r11
  | .r11 => r11
  | .r10 => r10
  | r => reg r

structure LabelReturned (l : CallLabels) (regs : Reg → Word) (segs : Seg → BitVec 16)
    (r11 r10 ret : Word) (high : Nat) (m m' : Machine M) : Prop where
  rip : m'.rip = ret
  rax : m'.reg .rax = if Succeeds (regs .rax) then regs .rax else -1
  rsp : m'.reg .rsp = BitVec.ofNat 64 high
  reg : ∀ r, r ≠ .rax → r ≠ .rsp → m'.reg r = backReg regs r11 r10 r
  seg : m'.seg = segs
  errno : ¬ Succeeds (regs .rax) → load m'.memory l.errno = regs .rax
  memory : ∀ a, a + 8 ≤ l.errno ∨ l.errno + 8 ≤ a ∨ Succeeds (regs .rax) →
    load m'.memory a = load m.memory a

theorem retq_rsp {v : View} {ret : Word} (shows : Shows m v) (stack : v.stack = [ret]) :
    (retq m).reg .rsp = BitVec.ofNat 64 v.high := by
  have ends := shows.ends
  have bound := shows.bound
  rw [stack] at ends
  simp only [List.length_cons, List.length_nil] at ends
  have moved : (retq m).sp = m.sp + 8 := Machine.drop_sp (by omega)
  have here : v.high = (retq m).sp := by omega
  rw [here, Machine.sp, BitVec.ofNat_toNat, BitVec.setWidth_eq]

theorem labelSyscallRet_ensures {reg : Reg → Word} {seg : Seg → BitVec 16} {r11 r10 ret : Word}
    {high : Nat} (shows : Shows m ⟨reg, seg, [r11, r10, ret], high, 0⟩)
    (errno : l.errno + 16 ≤ high ∨ high ≤ l.errno) :
    Ensures status routine l.labelSyscallRet
      (LabelReturned l reg seg r11 r10 ret high m) m := by
  obtain ⟨regs, ran, rax, values⟩ : ∃ regs, View.run
      [.xchg .rdx .r10, .xchg .rcx .r11, .pop .r11, .pop .r10]
        ⟨reg, seg, [r11, r10, ret], high, 0⟩ = some ⟨regs, seg, [ret], high, 0⟩ ∧
      regs .rax = reg .rax ∧ ∀ r, r ≠ .rax → r ≠ .rsp → regs r = backReg reg r11 r10 r := by
    refine ⟨_, rfl, rfl, fun r _ _ => ?_⟩
    cases r <;> rfl
  have ready : Shows (run status [.xchg .rdx .r10, .xchg .rcx .r11, .pop .r11, .pop .r10] m) _ :=
    shows.run _ ran
  have memory : (run status [.xchg .rdx .r10, .xchg .rcx .r11, .pop .r11, .pop .r10] m).memory =
      m.memory := rfl
  show (_ → _) ∧ (_ → _)
  generalize run status [.xchg .rdx .r10, .xchg .rcx .r11, .pop .r11, .pop .r10] m = m₃
    at ready memory ⊢
  have result : m₃.reg .rax = reg .rax := (ready.reg .rax (by decide)).trans rax
  have ends : m₃.sp + 8 = high := ready.ends
  have others (r : Reg) (not_rax : r ≠ .rax) (not_rsp : r ≠ .rsp) :
      m₃.reg r = backReg reg r11 r10 r :=
    (ready.reg r not_rsp).trans (values r not_rax not_rsp)
  constructor
  · intro succeeds
    have ok : Succeeds (m₃.reg .rax) := succeeds
    rw [result] at ok
    constructor
    · exact ready.words.1
    · rw [if_pos ok]
      exact result
    · exact retq_rsp ready rfl
    · intro r not_rax not_rsp
      show Function.update _ _ _ r = _
      rw [Function.update_of_ne not_rsp]
      exact others r not_rax not_rsp
    · exact ready.seg
    · exact fun fails => absurd ok fails
    · intro a _
      show load m₃.memory a = _
      rw [memory]
  · intro fails
    have error : ¬ Succeeds (m₃.reg .rax) := fails
    rw [result] at error
    have stored : Shows (run status [.put .rax l.errno, .orImm (-1) .rax] m₃)
        ⟨Function.update regs .rax (-1), seg, [ret], high, 0⟩ := by
      have ones : (-1 : Word) ||| m₃.reg .rax = -1 := BitVec.allOnes_or
      refine ⟨fun r other => ?_, ready.seg, ?_, ends, ready.bound, Nat.zero_le _⟩
      · by_cases same : r = .rax
        · subst same
          exact ones
        · exact (Function.update_of_ne same _ _).trans ((ready.reg r other).trans
            (Function.update_of_ne same _ _).symm)
      · apply words_store _ _ ready.words
        show l.errno + 8 ≤ m₃.sp ∨ m₃.sp + 8 * 1 ≤ l.errno
        omega
    constructor
    · exact stored.words.1
    · rw [if_neg error]
      exact stored.reg .rax (by decide)
    · exact retq_rsp stored rfl
    · intro r not_rax not_rsp
      show Function.update _ _ _ r = _
      rw [Function.update_of_ne not_rsp, stored.reg r not_rsp]
      exact (Function.update_of_ne not_rax _ _).trans (values r not_rax not_rsp)
    · exact stored.seg
    · intro _
      show load (store m₃.memory l.errno (m₃.reg .rax)) l.errno = _
      rw [load_store, result]
    · intro a outside
      show load (store m₃.memory l.errno (m₃.reg .rax)) a = _
      rw [load_store_apart _ _ (by tauto), memory]

structure CalledFor (l : CallLabels) (nr : Word) (m b : Machine M) : Prop where
  arguments : ∀ r ∈ [Reg.rdi, .rsi, .rcx, .r8, .r9], b.reg r = m.reg r
  third : b.reg .rdx = 0x10
  frame : ∃ p : PtRegs, (∀ r, r ≠ .rsp → p.get r = callReg l m nr r) ∧
    Words b.memory (kernelTop m - 192) p.words

theorem calledFor_of {p : PtRegs} {reg : Reg → Word} {seg : Seg → BitVec 16} {b : Machine M}
    (called : SysCalled p l.after_call (kernelTop m) b) (saves : p.Saves reg seg)
    (regs : ∀ r, r ≠ .rsp → reg r = callReg l m nr r) : CalledFor l nr m b := by
  have values (r : Reg) (other : r ≠ .rsp) := (saves.reg r other).trans (regs r other)
  refine ⟨fun r member => ?_, called.third, p, values, called.frame⟩
  have general : r ≠ .rsp := by
    rintro rfl
    simp at member
  rw [called.arguments r member, values r general]
  simp only [List.mem_cons, List.not_mem_nil, or_false] at member
  rcases member with rfl | rfl | rfl | rfl | rfl <;> rfl

theorem sysenter_shows {v : View} {at_ : Machine M} (shows : Shows at_ v)
    (room : 8 * 25 ≤ kernelTop at_) :
    Shows (sysenter at_) ⟨v.reg, (sysenter at_).seg, [], kernelTop at_, 25⟩ := by
  refine ⟨fun r other => ?_, rfl, trivial, ?_, (at_.msr 0x175).isLt, ?_⟩
  · show Function.update _ _ _ r = _
    rw [Function.update_of_ne other, shows.reg r other]
  · simp [sysenter, Machine.sp, kernelTop]
  · simpa [sysenter, Machine.sp, kernelTop] using room

theorem sysexit_shows {q : PtRegs} {m' m₁ : Machine M} {cs : BitVec 16} {regs : Reg → Word}
    {segs : Seg → BitVec 16} {ws : List Word} {high : Nat} (user : UserBack q cs (sysexit m'))
    (shows : Shows m₁ ⟨regs, segs, ws, high, 0⟩) (rsp : q.r11 = m₁.reg .rsp)
    (kept : ∀ a, m₁.sp ≤ a → a + 8 ≤ high → load m'.memory a = load m₁.memory a) :
    Shows (sysexit m') ⟨sysReg q, (sysexit m').seg, ws, high, 0⟩ := by
  have ends : m₁.sp + 8 * ws.length = high := shows.ends
  have same : (sysexit m').sp = m₁.sp := by
    rw [Machine.sp, user.reg]
    exact congrArg BitVec.toNat rsp
  refine ⟨fun r _ => congrFun user.reg r, rfl, ?_, ?_, shows.bound, Nat.zero_le _⟩
  · show Words m'.memory (sysexit m').sp ws
    rw [same]
    exact words_congr (fun a low below => kept a low (by omega)) shows.words
  · rw [same]
    exact ends

theorem callCode_outside (low : 16 ≤ m.sp) (high : m.sp + 8 < 2 ^ 64) {a : Nat}
    (beyond : a + 24 ≤ m.sp ∨ m.sp + 8 ≤ a) :
    load (run status (callCode l nr) m).memory a = load m.memory a := by
  obtain ⟨v, ran⟩ : ∃ v, View.run (callCode l nr) ⟨m.reg, m.seg, [m.top], m.sp + 8, 2⟩ = some v :=
    ⟨_, rfl⟩
  apply (user_shows m low high).run_outside (callCode l nr) ran
  show a + 8 ≤ m.sp + 8 - 8 * (1 + 2) ∨ m.sp + 8 ≤ a
  omega

theorem returned_of (callable : Callable l region nr f m) {q : PtRegs} {result : Word}
    {m' m'' : Machine M} (values : ∀ r, r ≠ .rax → r ≠ .rsp → q.get r = callReg l m nr r)
    (rax : q.rax = result) (ds : q.ds = (m.seg .ds).setWidth 64)
    (es : q.es = (m.seg .es).setWidth 64) (user : UserBack q 8 m')
    (label : LabelReturned l (sysReg q) m'.seg (m.reg .r11) (m.reg .r10) m.top (m.sp + 8) m' m'')
    (kept : ∀ a, region.kept a → kernelTop m ≤ a ∨ a + 8 ≤ region.bottom →
      a + 24 ≤ m.sp ∨ m.sp + 8 ≤ a → load m'.memory a = load m.memory a) :
    Returned l region result m m'' := by
  have selector (s : BitVec 16) : (s.setWidth 64).setWidth 16 = s := by simp
  have result_reg : sysReg q .rax = result := rax
  have label_rax := label.rax
  have label_errno := label.errno
  have label_memory := label.memory
  rw [result_reg] at label_rax label_errno label_memory
  constructor
  · exact label.rip
  · exact label_rax
  · rw [label.rsp, BitVec.ofNat_add, Machine.sp, BitVec.ofNat_toNat, BitVec.setWidth_eq]
    rfl
  · intro r not_rax not_rsp
    rw [label.reg r not_rax not_rsp]
    have value := values r not_rax not_rsp
    cases r <;> first
      | exact absurd rfl not_rax
      | exact absurd rfl not_rsp
      | rfl
      | exact values .rdx (by decide) (by decide)
      | exact values .rcx (by decide) (by decide)
      | exact value
  · intro s member
    rw [label.seg]
    simp only [List.mem_cons, List.not_mem_nil, or_false] at member
    rcases member with rfl | rfl | rfl | rfl
    · exact user.cs.trans callable.cs.symm
    · exact user.ss.trans callable.ss.symm
    · rw [user.ds, ds, selector]
    · rw [user.es, es, selector]
  · exact label_errno
  · exact fun a member outside apart errno =>
      (label_memory a errno).trans (kept a member outside apart)

theorem sysfunc_ensures (callable : Callable l region nr f m) (keeps : Keeps region (routine f))
    (msr : ∀ b c, routine f b c → c.msr 0x174 = b.msr 0x174) :
    Ensures status routine (l.sysfunc nr) (fun m' => ∃ b c, routine f b c ∧ CalledFor l nr m b ∧
      Returned l region (c.reg .rax) m m') m := by
  have user : Shows (run status (callCode l nr) m) _ := callCode_shows callable.low callable.high
  have outside {a : Nat} (beyond : a + 24 ≤ m.sp ∨ m.sp + 8 ≤ a) :
      load (run status (callCode l nr) m).memory a = load m.memory a :=
    callCode_outside callable.low callable.high beyond
  have same_msr : (run status (callCode l nr) m).msr = m.msr := run_msr _ m
  have entered : (sysenter (run status (callCode l nr) m)).rip = l.system_call := by
    show (run status (callCode l nr) m).msr 0x176 = _
    rw [same_msr]
    exact callable.entry
  show (sysenter (run status (callCode l nr) m)).rip = l.system_call ∧
    Ensures status routine (l.systemCall _) _ (sysenter (run status (callCode l nr) m))
  refine ⟨entered, ?_⟩
  generalize run status (callCode l nr) m = m₁ at *
  have top : kernelTop m₁ = kernelTop m := by rw [kernelTop, same_msr, kernelTop]
  have room := callable.room
  have kernel := sysenter_shows user (by omega)
  rw [top] at kernel
  apply systemCall_ensures kernel callable.room (fun a low below => callable.within a low (by omega))
    _ callable.tableKernel keeps
  · intro p p' b c m' saves called returned b_msr words back m'_msr frame kept
    have same : p' = p := by
      have left : Words c.memory (kernelTop m - 192) p.words := by
        apply words_congr (fun a low high => ?_) called.frame
        have length : p.words.length = 24 := rfl
        exact frame a (callable.within a (by omega) (by omega)) low
      exact words_injective (words_unique words left rfl)
    subst same
    have cs : (c.msr 0x174).setWidth 16 = (8 : BitVec 16) := by
      rw [msr b c returned, b_msr]
      show (m₁.msr 0x174).setWidth 16 = _
      rw [same_msr, callable.kernelCs]
      rfl
    rw [cs] at back
    have values (r : Reg) (not_rax : r ≠ .rax) (not_rsp : r ≠ .rsp) :
        PtRegs.get { p' with rax := c.reg .rax } r = callReg l m nr r := by
      have value := saves.reg r not_rsp
      cases r <;> first | exact absurd rfl not_rax | exact absurd rfl not_rsp | exact value
    have ends : m₁.sp + 8 * 3 = m.sp + 8 := user.ends
    have rsp : p'.r11 = m₁.reg .rsp := by
      have place : m.sp - 16 = m₁.sp := by omega
      have pushed : p'.r11 = BitVec.ofNat 64 (m.sp - 16) := values .r11 (by decide) (by decide)
      rw [pushed, place, Machine.sp, BitVec.ofNat_toNat, BitVec.setWidth_eq]
    have stack := sysexit_shows back user rsp fun a low high => by
      obtain ⟨member, beyond⟩ := callable.stack a (by omega) (by omega)
      exact kept a member beyond
    have errno := callable.errno
    refine ⟨back.rip.trans (values .r10 (by decide) (by decide)), ?_⟩
    apply ensures_mono (labelSyscallRet_ensures stack (by omega))
    intro m'' returned_label
    have ds : p'.ds = (m.seg .ds).setWidth 64 := by
      rw [saves.ds]
      simp [sysenter, user.seg]
    have es : p'.es = (m.seg .es).setWidth 64 := by
      rw [saves.es]
      simp [sysenter, user.seg]
    refine ⟨b, c, returned, calledFor_of (top ▸ called) saves (fun _ _ => rfl), ?_⟩
    apply returned_of callable values rfl ds es back returned_label
    intro a member beyond apart
    exact (kept a member beyond).trans (outside apart)
  · exact (outside callable.tableUser).trans callable.table

/-- A system call comes back to its caller with every register but rax as it was, whatever the
    function of the table does on the kernel's stack: rax is the result, or -1 with the number of
    the error in errno. The function has its arguments in the registers that they are passed in,
    but for the third, which is 0x10. -/
theorem system_call_returns (callable : Callable l region nr f m)
    (keeps : Keeps region (routine f)) (msr : ∀ b c, routine f b c → c.msr 0x174 = b.msr 0x174)
    {out : Option (Machine M)} (runs : Runs status routine (l.sysfunc nr) m out) :
    ∃ m' b c, out = some m' ∧ routine f b c ∧ CalledFor l nr m b ∧
      Returned l region (c.reg .rax) m m' := by
  obtain ⟨m', same, b, c, returned, called, back⟩ :=
    ensures_run runs (sysfunc_ensures callable keeps msr)
  exact ⟨m', b, c, same, returned, called, back⟩

end user

section small
open InterruptDelivery

def smallCalls : CallLabels where
  system_call := 0x300
  system_call_table := 0x5000
  after_call := 0x301
  sysexit_return_address := 0x400
  errno := 0x8000

def smallUser : Machine ByteMemory.Memory where
  reg _ := 0x20000
  seg s := if s = .cs then 0x2b else 0x33
  rip := 0x410
  rflags := 0x202
  msr n := if n = 0x174 then 8 else if n = 0x175 then 0x10000 else 0x300
  memory _ := 0

theorem smallUser_callable : Callable smallCalls ⟨0xf000, fun _ => True⟩ 1 0 smallUser where
  cs := rfl
  ss := rfl
  kernelCs := rfl
  entry := rfl
  low := by decide
  high := by decide
  stack a low _ := by
    have sp : smallUser.sp = 0x20000 := rfl
    have top : kernelTop smallUser = 0x10000 := rfl
    exact ⟨trivial, .inl (by omega)⟩
  errno := by decide
  room := by decide
  within _ _ _ := trivial
  table := by decide
  tableKernel := by decide
  tableUser := by decide

theorem system_call_returns_one : ∃ m' b c,
    Runs (fun _ m => m.rflags) idle (smallCalls.sysfunc 1) smallUser (some m') ∧ idle 0 b c ∧
      CalledFor smallCalls 1 smallUser b ∧
      Returned smallCalls ⟨0xf000, fun _ => True⟩ (c.reg .rax) smallUser m' := by
  obtain ⟨out, runs⟩ := idle_runs (smallCalls.sysfunc 1) smallUser
  have msr (b c : Machine ByteMemory.Memory) (returned : idle 0 b c) :
      c.msr 0x174 = b.msr 0x174 := by
    rw [show c = retq b from returned]
    rfl
  obtain ⟨m', b, c, rfl, returned, called, back⟩ :=
    system_call_returns smallUser_callable (retq_keeps _) msr runs
  exact ⟨m', b, c, runs, returned, called, back⟩

end small

end SystemCalls

import Q2os.EntryFrames

/- Every exception and interrupt reaches its handler with a pt_regs of what was interrupted, and
   whatever path leads back from it, what was interrupted goes on as it was. -/
namespace KernelEntry
open StackMachine ControlFlow EntryFrames Labels
variable {M : Type} [WordMemory M]

def frameOf (m : Machine M) (func errcode : Word) : PtRegs where
  r15 := m.reg .r15
  r14 := m.reg .r14
  r13 := m.reg .r13
  r12 := m.reg .r12
  r11 := m.reg .r11
  r10 := m.reg .r10
  r9 := m.reg .r9
  r8 := m.reg .r8
  rbx := m.reg .rbx
  rcx := m.reg .rcx
  rdx := m.reg .rdx
  rsi := m.reg .rsi
  rdi := m.reg .rdi
  rbp := m.reg .rbp
  ds := (m.seg .ds).setWidth 64
  es := (m.seg .es).setWidth 64
  rax := m.reg .rax
  func := func
  errcode := errcode
  rip := m.rip
  cs := (m.seg .cs).setWidth 64
  rflags := m.rflags
  rsp := m.reg .rsp
  ss := (m.seg .ss).setWidth 64

/- A C function as it is entered, with a pt_regs and a number as its arguments. -/
structure Called (m : Machine M) (p : PtRegs) (argument ret : Word) (base : Nat) : Prop where
  regs : m.reg .rdi = BitVec.ofNat 64 (base - 192)
  argument : m.reg .rsi = argument
  frame : Words m.memory (base - 192) p.words
  top : m.top = ret
  sp : m.sp + 200 = base
  ds : m.seg .ds = 0x10
  es : m.seg .es = 0x10

/- The first routine that a flow without branches before it enters. -/
def entered (status : Instr → Machine M → Word) : Flow M → Machine M → Option (Word × Machine M)
  | .run code next, m => entered status next (StackMachine.run status code m)
  | .enter target _ _, m => some (target m, m)
  | _, _ => none

structure Restored (p : PtRegs) (m : Machine M) : Prop where
  reg : m.reg = p.get
  rip : m.rip = p.rip
  rflags : m.rflags = p.rflags
  cs : m.seg .cs = p.cs.setWidth 16
  ss : m.seg .ss = p.ss.setWidth 16
  ds : m.seg .ds = p.ds.setWidth 16
  es : m.seg .es = p.es.setWidth 16

section back
variable {status : Instr → Machine M → Word} {routine : Word → Machine M → Machine M → Prop}
  {region : Region} {before m : Machine M} {v : View} {p : PtRegs} (k : Labels)

/- The machine that RESTORE_ALL makes of a pt_regs on the stack. -/
def Back (p : PtRegs) (region : Region) (base : Nat) (before m' : Machine M) : Prop :=
  Restored p m' ∧ ∀ a, region.kept a → base ≤ a ∨ a + 8 ≤ region.bottom →
    load m'.memory a = load before.memory a

theorem iretq_back (holds : Holds region before m v)
    (frame : v.stack = [p.rip, p.cs, p.rflags, p.rsp, p.ss])
    (regs : ∀ r, r ≠ .rsp → v.reg r = p.get r) (ds : v.seg .ds = p.ds.setWidth 16)
    (es : v.seg .es = p.es.setWidth 16) : Back p region v.high before (iretq m) := by
  rw [iretq_shows holds.shows frame]
  have seg := holds.shows.seg
  constructor
  · constructor
    · funext r
      by_cases stack_pointer : r = .rsp
      · subst stack_pointer
        rfl
      · show Function.update m.reg .rsp p.rsp r = p.get r
        rw [Function.update_of_ne stack_pointer, holds.shows.reg r stack_pointer,
          regs r stack_pointer]
    · rfl
    · rfl
    · simp
    · simp
    · simpa [seg] using ds
    · simpa [seg] using es
  · exact holds.kept

theorem restoreAll_ensures (holds : Holds region before m v) (frame : v.stack = p.words) :
    Ensures status routine restoreAll (Back p region v.high before) m := by
  obtain ⟨reg, seg, stack, high, room⟩ := v
  subst frame
  obtain ⟨w, popped, regs, segs, rest, same, _⟩ := run_popRegs seg p.above high p reg room
  have ran : View.run (popRegs ++ [.add 0x10 .rsp]) ⟨reg, seg, p.words, high, room⟩ =
      some { w with stack := [p.rip, p.cs, p.rflags, p.rsp, p.ss] } := by
    rw [View.run_append, PtRegs.words, popped]
    simp [View.run, View.exec, rest, PtRegs.above]
  have ready : Holds region before (run status _ m) _ := holds.run _ ran
  have back := iretq_back ready rfl regs (by simp [segs]) (by simp [segs])
  rwa [same] at back

/- What a flow does that is entered with a pt_regs on top of the stack. -/
def Restores (status : Instr → Machine M → Word) (routine : Word → Machine M → Machine M → Prop)
    (region : Region) (p : PtRegs) (flow : Flow M) : Prop :=
  ∀ before m v, Holds region before m v → v.stack = p.words → 1 ≤ v.room →
    Ensures status routine flow (Back p region v.high before) m

theorem restoreAll_restores : Restores status routine region p restoreAll :=
  fun _ _ _ holds frame _ => restoreAll_ensures holds frame

theorem call_restores {target ret : Word} {next : Flow M} (keeps : Keeps region (routine target))
    (restores : Restores status routine region p next) :
    Restores status routine region p (call (fun _ => target) ret next) := by
  intro before m v holds frame room
  obtain ⟨n, some_room⟩ : ∃ n, v.room = n + 1 := ⟨v.room - 1, by omega⟩
  have pushed : v.run [.pushImm ret] = some { v with stack := ret :: v.stack, room := n } := by
    simp [View.run, View.exec, View.push, some_room]
  intro m' returned
  obtain ⟨back, again⟩ := (holds.run [.pushImm ret] pushed).returns keeps returned rfl
  have rest := restores _ _ _ again frame (Nat.le_add_left 1 n)
  exact ⟨back, rest⟩

theorem run_restores {code : List Instr} {next : Flow M}
    (leaves : ∀ before m v, Holds region before m v → ∃ reg seg,
      Holds region before (run status code m) { v with reg, seg })
    (restores : Restores status routine region p next) :
    Restores status routine region p (.run code next) := by
  intro before m v holds frame room
  obtain ⟨reg, seg, again⟩ := leaves before m v holds
  have rest := restores _ _ _ again frame room
  exact rest

theorem branch_restores {taken : Machine M → Prop} {yes no : Flow M}
    (first : Restores status routine region p yes) (second : Restores status routine region p no) :
    Restores status routine region p (.branch taken yes no) :=
  fun before m v holds frame room =>
    ⟨fun _ => first before m v holds frame room, fun _ => second before m v holds frame room⟩

theorem trySchedule_restores (schedule : Keeps region (routine k.schedule)) :
    Restores status routine region p k.trySchedule := by
  have resched : Restores status routine region p k.reschedule :=
    call_restores schedule restoreAll_restores
  apply run_restores
  · intro before m v holds
    have current : v.run (getCurrent .rbx) = some ((v.set .rbx (-32768)).set .rbx
        (v.get .rsp &&& -32768)) := by
      simp [getCurrent, View.run, View.exec, View.get, View.set]
    have got : Holds region before (run status _ m) _ := holds.run _ current
    rw [run_append]
    exact ⟨_, _, got.set _ (by decide)⟩
  · apply branch_restores restoreAll_restores
    apply run_restores
    · exact fun before m v holds => ⟨_, _, holds.set _ (by decide)⟩
    · exact branch_restores resched restoreAll_restores

theorem retFromIntr_restores (softirq : Keeps region (routine k.do_softirq))
    (schedule : Keeps region (routine k.schedule)) :
    Restores status routine region p k.retFromIntr := by
  apply run_restores
  · exact fun before m v holds => ⟨_, _, holds.set (-1) (by decide)⟩
  · apply branch_restores
    · exact call_restores softirq (trySchedule_restores k schedule)
    · exact trySchedule_restores k schedule

end back

section calls
variable {status : Instr → Machine M → Word} {m : Machine M} {v : View} {p : PtRegs}
  {reg : Reg → Word} {seg : Seg → BitVec 16} {high : Nat}

theorem called_of_shows {argument ret : Word} (shows : Shows m v) (stack : v.stack = ret :: p.words)
    (rdi : v.reg .rdi = BitVec.ofNat 64 (v.high - 192)) (rsi : v.reg .rsi = argument)
    (ds : v.seg .ds = 0x10) (es : v.seg .es = 0x10) : Called m p argument ret v.high := by
  have words := shows.words
  have ends := shows.ends
  rw [stack] at words ends
  have length : (ret :: p.words).length = 25 := rfl
  rw [length] at ends
  have place : m.sp + 8 = v.high - 192 := by omega
  constructor
  · rw [shows.reg .rdi (by decide), rdi]
  · rw [shows.reg .rsi (by decide), rsi]
  · exact place ▸ words.2
  · exact words.1
  · omega
  · rw [shows.seg, ds]
  · rw [shows.seg, es]

theorem run_errorCode (room : Nat) (saves : p.Saves reg seg) :
    ∃ v : View, View.run errorCodeCode ⟨reg, seg, p.above, high, room + 17⟩ = some v ∧
      v.reg .rdi = BitVec.ofNat 64 (high - 192) ∧ v.reg .rsi = p.errcode ∧ v.reg .rdx = p.func ∧
      v.seg .ds = 0x10 ∧ v.seg .es = 0x10 ∧ v.stack = p.words ∧ v.high = high ∧ v.room = room := by
  refine ⟨_, by rw [errorCodeCode, View.run_append, run_pushRegs p.above high room saves]; rfl, ?_⟩
  exact ⟨rfl, rfl, rfl, rfl, rfl, rfl, rfl, rfl⟩

theorem run_handlerAddress {h : Word} (stack : List Word) (room : Nat) :
    View.run [.push .rax, .movImm h .rax, .xchgTop .rax] ⟨reg, seg, stack, high, room + 1⟩ =
      some ⟨reg, seg, h :: stack, high, room⟩ := by
  simp [View.run, View.exec, View.push, View.get, View.set]

end calls

/- A flow that enters a function with a pt_regs, and goes on as the pt_regs says when the functions
   that it enters keep it. -/
def Handled (k : Labels) (status : Instr → Machine M → Word)
    (routine : Word → Machine M → Machine M → Prop) (region : Region) (before : Machine M)
    (p : PtRegs) (argument target ret : Word) (flow : Flow M) (m : Machine M) (high : Nat) : Prop :=
  (∃ m', entered status flow m = some (target, m') ∧ Called m' p argument ret high) ∧
    ((∀ f ∈ [target, k.do_softirq, k.schedule], Keeps region (routine f)) →
      Ensures status routine flow (Back p region high before) m)

section stubs
variable {k : Labels} {status : Instr → Machine M → Word}
  {routine : Word → Machine M → Machine M → Prop} {region : Region} {before m : Machine M}
  {p : PtRegs} {v : View} {reg : Reg → Word} {seg : Seg → BitVec 16} {high room : Nat}

theorem enter_handled {target : Machine M → Word} {argument ret : Word} {next : Flow M}
    (holds : Holds region before m v) (stack : v.stack = ret :: p.words)
    (rdi : v.reg .rdi = BitVec.ofNat 64 (v.high - 192)) (rsi : v.reg .rsi = argument)
    (ds : v.seg .ds = 0x10) (es : v.seg .es = 0x10)
    (restores : Keeps region (routine k.do_softirq) → Keeps region (routine k.schedule) →
      Restores status routine region p next) :
    Handled k status routine region before p argument (target m) ret (.enter target ret next) m
      v.high := by
  constructor
  · exact ⟨m, rfl, called_of_shows holds.shows stack rdi rsi ds es⟩
  · intro keeps m' returned
    obtain ⟨back, again⟩ := holds.returns (keeps _ (by simp)) returned stack
    have rest := restores (keeps _ (by simp)) (keeps _ (by simp)) _ _ _ again rfl
      (Nat.le_add_left 1 _)
    exact ⟨back, rest⟩

theorem errorCode_handled (holds : Holds region before m ⟨reg, seg, p.above, high, room + 18⟩)
    (saves : p.Saves reg seg) :
    Handled k status routine region before p p.errcode p.func k.after_exception k.errorCode m
      high := by
  obtain ⟨⟨regs, segs, _, _, _⟩, ran, rdi, rsi, rdx, ds, es, rfl, rfl, rfl⟩ :=
    run_errorCode (room + 1) saves
  have pushed : View.run [.pushImm k.after_exception] ⟨regs, segs, p.words, high, room + 1⟩ =
      some ⟨regs, segs, k.after_exception :: p.words, high, room⟩ := rfl
  have ready : Holds region before (run status _ (run status _ m)) _ :=
    (holds.run errorCodeCode ran).run _ pushed
  have target : (run status [.pushImm k.after_exception] (run status errorCodeCode m)).reg .rdx =
      p.func := (ready.shows.reg .rdx (by decide)).trans rdx
  have handled : Handled k status routine region before p p.errcode _ k.after_exception
      (.enter (fun m => m.reg .rdx) k.after_exception k.retFromIntr) _ _ :=
    enter_handled ready rfl rdi rsi ds es (retFromIntr_restores k)
  rw [target] at handled
  exact handled

theorem coded_handled {e : Exception} (func : p.func = k.do_exception e)
    (holds : Holds region before m ⟨reg, seg, p.above.tail, high, room + 19⟩)
    (saves : p.Saves reg seg) :
    Handled k status routine region before p p.errcode p.func k.after_exception (k.coded e) m
      high := by
  have ran : View.run [.push .rax, .movImm (k.do_exception e) .rax, .xchgTop .rax]
      ⟨reg, seg, p.above.tail, high, room + 19⟩ = some ⟨reg, seg, p.above, high, room + 18⟩ := by
    rw [run_handlerAddress, ← func]
    rfl
  have ready : Holds region before (run status _ m) ⟨reg, seg, p.above, high, room + 18⟩ :=
    holds.run _ ran
  exact errorCode_handled ready saves

theorem uncoded_handled {e : Exception} (func : p.func = k.do_exception e) (none : p.errcode = 0)
    (holds : Holds region before m ⟨reg, seg, p.above.tail.tail, high, room + 20⟩)
    (saves : p.Saves reg seg) :
    Handled k status routine region before p p.errcode p.func k.after_exception (k.uncoded e) m
      high := by
  have pushed : View.run [.pushImm 0] ⟨reg, seg, p.above.tail.tail, high, room + 20⟩ =
      some ⟨reg, seg, p.above.tail, high, room + 19⟩ := by
    rw [PtRegs.above, none]
    rfl
  have ready : Holds region before (run status _ m) ⟨reg, seg, p.above.tail, high, room + 19⟩ :=
    holds.run _ pushed
  exact coded_handled func ready saves

theorem nmi_handled (func : p.func = p.rax) (errcode : p.errcode = p.rax)
    (holds : Holds region before m ⟨reg, seg, p.above.tail.tail, high, room + 20⟩)
    (saves : p.Saves reg seg) :
    Handled k status routine region before p 0 (k.do_exception .nmi) k.after_nmi k.nmi m high := by
  have rax : p.rax = reg .rax := saves.reg .rax (by decide)
  have pushed : View.run [.push .rax, .cld, .push .rax]
      ⟨reg, seg, p.above.tail.tail, high, room + 20⟩ =
      some ⟨reg, seg, p.above, high, room + 18⟩ := by
    simp [View.run, View.exec, View.push, View.get, PtRegs.above, func, errcode, rax]
  have ran : View.run (nmiCode ++ [.pushImm k.after_nmi])
      ⟨reg, seg, p.above.tail.tail, high, room + 20⟩ = some
      { reg := Function.update (Function.update (Function.update (Function.update reg .rax 0)
          .rdx 0x10) .rsi 0) .rdi (BitVec.ofNat 64 (high - 192))
        seg := Function.update (Function.update seg .ds 0x10) .es 0x10
        stack := k.after_nmi :: p.words
        high
        room } := by
    rw [nmiCode, View.run_append, View.run_append, View.run_append, pushed, Option.bind_some,
      run_pushRegs p.above high (room + 1) saves]
    rfl
  have ready : Holds region before (run status (nmiCode ++ _) m) _ := holds.run _ ran
  rw [run_append] at ready
  have handled : Handled k status routine region before p 0 (k.do_exception .nmi) k.after_nmi
      (.enter (fun _ => k.do_exception .nmi) k.after_nmi restoreAll) _ high :=
    enter_handled ready rfl rfl rfl rfl rfl fun _ _ => restoreAll_restores
  exact handled

theorem buildIRQ_handled {nr : Word} (func : p.func = p.rax) (errcode : p.errcode = 0)
    (holds : Holds region before m ⟨reg, seg, p.above.tail.tail, high, room + 20⟩)
    (saves : p.Saves reg seg) :
    Handled k status routine region before p nr k.do_IRQ k.ret_from_intr (k.buildIRQ nr) m
      high := by
  have rax : p.rax = reg .rax := saves.reg .rax (by decide)
  have pushed : View.run [.pushImm 0, .cld, .push .rax]
      ⟨reg, seg, p.above.tail.tail, high, room + 20⟩ =
      some ⟨reg, seg, p.above, high, room + 18⟩ := by
    simp [View.run, View.exec, View.push, View.get, PtRegs.above, func, errcode, rax]
  have ran : View.run (k.irqCode nr) ⟨reg, seg, p.above.tail.tail, high, room + 20⟩ = some
      { reg := Function.update (Function.update (Function.update (Function.update
          (Function.update reg .rax 0) .rdx 0x10) .rdi (BitVec.ofNat 64 (high - 192)))
          .rax k.ret_from_intr) .rsi nr
        seg := Function.update (Function.update seg .ds 0x10) .es 0x10
        stack := k.ret_from_intr :: p.words
        high
        room } := by
    have parts : k.irqCode nr = [.pushImm 0, .cld, .push .rax] ++ (pushRegs ++
        [.movImm 0x10 .rdx, .toSeg .rdx .ds, .toSeg .rdx .es, .mov .rsp .rdi,
          .movImm k.ret_from_intr .rax, .push .rax, .movImm nr .rsi]) := rfl
    rw [parts, View.run_append, pushed, Option.bind_some, View.run_append,
      run_pushRegs p.above high (room + 1) saves]
    rfl
  have ready : Holds region before (run status (k.irqCode nr) m) _ := holds.run _ ran
  have handled : Handled k status routine region before p nr k.do_IRQ k.ret_from_intr
      (.enter (fun _ => k.do_IRQ) k.ret_from_intr k.retFromIntr) _ high :=
    enter_handled ready rfl rfl rfl rfl rfl (retFromIntr_restores k)
  exact handled

end stubs

/- What the processor takes an interrupt for: an exception, or an interrupt of a number. -/
inductive Cause where
  | exception (e : Exception)
  | interrupt (nr : Word)
deriving DecidableEq

namespace Cause

def flow (k : Labels) : Cause → Flow M
  | .exception e => k.exceptionEntry e
  | .interrupt nr => k.buildIRQ nr

def coded : Cause → Bool
  | .exception e => pushesCode e.vector
  | .interrupt _ => false

def target (k : Labels) : Cause → Word
  | .exception e => k.do_exception e
  | .interrupt _ => k.do_IRQ

def argument (error : Option Word) : Cause → Word
  | .exception e => if e = .nmi then 0 else error.getD 0
  | .interrupt nr => nr

def frame (k : Labels) (m : Machine M) (error : Option Word) : Cause → PtRegs
  | .exception e =>
    if e = .nmi then frameOf m (m.reg .rax) (m.reg .rax)
    else frameOf m (k.do_exception e) (error.getD 0)
  | .interrupt _ => frameOf m (m.reg .rax) 0

def ret (k : Labels) : Cause → Word
  | .exception e => if e = .nmi then k.after_nmi else k.after_exception
  | .interrupt _ => k.ret_from_intr

end Cause

omit [WordMemory M] in
theorem arrivalSeg_kept (m : Machine M) (selector : BitVec 16) {s : Seg} (code : s ≠ .cs)
    (stack : s ≠ .ss) : arrivalSeg m selector s = m.seg s := by
  unfold arrivalSeg
  split <;> simp [code, stack]

omit [WordMemory M] in
theorem frameOf_saves (m : Machine M) (selector : BitVec 16) (func errcode : Word) :
    (frameOf m func errcode).Saves m.reg (arrivalSeg m selector) := by
  constructor
  · intro r _
    cases r <;> rfl
  · rw [arrivalSeg_kept m selector (by decide) (by decide)]
    rfl
  · rw [arrivalSeg_kept m selector (by decide) (by decide)]
    rfl

/- The stubs agree with the processor on which exceptions have an error code. -/
theorem entry_coded (k : Labels) {e : Exception} (coded : pushesCode e.vector = true) :
    e ≠ .nmi ∧ k.exceptionEntry (M := M) e = k.coded e := by
  cases e <;> first | exact absurd coded (by decide) | exact ⟨by decide, rfl⟩

theorem entry_uncoded (k : Labels) {e : Exception} (other : e ≠ .nmi)
    (uncoded : pushesCode e.vector = false) : k.exceptionEntry (M := M) e = k.uncoded e := by
  cases e <;> first | exact absurd uncoded (by decide) | exact absurd rfl other | rfl

section causes
variable {k : Labels} {status : Instr → Machine M → Word}
  {routine : Word → Machine M → Machine M → Prop} {region : Region}

theorem cause_handled (c : Cause) (m : Machine M) (entry : Word) (selector : BitVec 16)
    (clear stack : Word) (error : Option Word) (code : error.isSome = c.coded)
    (enough : region.bottom + 8 * 26 ≤ (frameEnd stack).toNat)
    (within : ∀ a, region.bottom ≤ a → a + 8 ≤ (frameEnd stack).toNat → region.kept a) :
    Handled k status routine region m (c.frame k m error) (c.argument error) (c.target k) (c.ret k)
      (c.flow k) (arrive m entry selector clear stack error) (frameEnd stack).toNat := by
  have saves := frameOf_saves m selector
  have holds := arrive_holds m entry selector clear stack error enough within
  cases c with
  | interrupt nr =>
    obtain rfl : error = none := Option.not_isSome_iff_eq_none.mp (by simp [code, Cause.coded])
    exact buildIRQ_handled rfl rfl holds (saves _ _)
  | exception e =>
    cases coded : pushesCode e.vector with
    | true =>
      obtain ⟨w, rfl⟩ := Option.isSome_iff_exists.mp (code.trans coded)
      obtain ⟨other, stub⟩ := entry_coded (M := M) k coded
      simp only [Cause.frame, Cause.argument, Cause.target, Cause.ret, Cause.flow, other, stub,
        ↓reduceIte]
      exact coded_handled rfl holds (saves _ _)
    | false =>
      obtain rfl : error = none :=
        Option.not_isSome_iff_eq_none.mp (by simp [code, Cause.coded, coded])
      by_cases other : e = .nmi
      · subst other
        exact nmi_handled rfl rfl holds (saves _ _)
      · have stub := entry_uncoded (M := M) k other coded
        simp only [Cause.frame, Cause.argument, Cause.target, Cause.ret, Cause.flow, other, stub,
          ↓reduceIte]
        exact uncoded_handled rfl rfl holds (saves _ _)

end causes

structure Resumes (region : Region) (base : Nat) (m m' : Machine M) : Prop where
  reg : m'.reg = m.reg
  rip : m'.rip = m.rip
  rflags : m'.rflags = m.rflags
  seg : ∀ s ∈ [Seg.cs, .ss, .ds, .es], m'.seg s = m.seg s
  memory : ∀ a, region.kept a → base ≤ a ∨ a + 8 ≤ region.bottom →
    load m'.memory a = load m.memory a

omit [WordMemory M] in
theorem frame_of (k : Labels) (c : Cause) (m : Machine M) (error : Option Word) :
    ∃ func errcode, c.frame k m error = frameOf m func errcode := by
  cases c with
  | interrupt nr => exact ⟨_, _, rfl⟩
  | exception e =>
    simp only [Cause.frame]
    split
    · exact ⟨_, _, rfl⟩
    · exact ⟨_, _, rfl⟩

theorem resumes_of_back {m m' : Machine M} {func errcode : Word} {region : Region} {base : Nat}
    (back : Back (frameOf m func errcode) region base m m') : Resumes region base m m' := by
  obtain ⟨restored, kept⟩ := back
  have selector (s : BitVec 16) : (s.setWidth 64).setWidth 16 = s := by simp
  constructor
  · rw [restored.reg]
    funext r
    cases r <;> rfl
  · exact restored.rip
  · exact restored.rflags
  · intro s member
    simp only [List.mem_cons, List.not_mem_nil, or_false] at member
    rcases member with rfl | rfl | rfl | rfl
    · exact restored.cs.trans (selector _)
    · exact restored.ss.trans (selector _)
    · exact restored.ds.trans (selector _)
    · exact restored.es.trans (selector _)
  · exact kept

end KernelEntry

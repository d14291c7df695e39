import Q2os.ChildStack
import Q2os.Run
import Q2os.SystemCalls

/- A processor that runs one task after another, and what a task finds when it runs again: the one
   that left by switch_to, the child of fork, and a kernel thread. -/
namespace TaskSwitch
open StackMachine ControlFlow EntryFrames SystemCalls TaskStacks ChildStack
variable {M : Type} [WordMemory M]

theorem current_toNat (w : Word) : (w &&& (-32768 : Word)).toNat = w.toNat / 32768 * 32768 := by
  have ones : (-32768 : Word) = BitVec.allOnes 64 <<< 15 := by decide
  have mask : w &&& (-32768 : Word) = (w >>> 15) <<< 15 := by
    rw [ones]
    ext i within
    simp only [BitVec.getElem_and, BitVec.getElem_shiftLeft, BitVec.getElem_allOnes,
      BitVec.getElem_ushiftRight]
    by_cases low : i < 15
    · simp [low]
    · have back : 15 + (i - 15) = i := by omega
      simp [low, back, BitVec.getLsbD_eq_getElem within]
  have small := w.isLt
  rw [mask]
  simp [BitVec.toNat_shiftLeft, BitVec.toNat_ushiftRight, Nat.shiftLeft_eq,
    Nat.shiftRight_eq_div_pow]
  omega

/- The processor with the task that it runs, and what the other tasks have been left with. -/
structure State (M : Type) where
  machine : Machine M
  current : Nat
  parked : Nat → Option (Parked M)

def State.leave (s : State M) : Nat → Option (Parked M) :=
  Function.update s.parked s.current (some (.left s.machine))

section system
variable (k : Space) (status : Instr → Machine M → Word)

/- Where control goes on behind __switch_to. -/
def continues (m : Machine M) : Machine M := if m.rip = k.label then run status resume m else m

/- Whatever a task does between two switches: it leaves alone what the other tasks need, and what
   the switch needs of its own. -/
structure Works (s s' : State M) : Prop where
  current : s'.current = s.current
  parked : s'.parked = s.parked
  others : ∀ t p, s.parked t = some p → ∀ a, k.Needs 5 t (p.sp t) a →
    load s'.machine.memory a = load s.machine.memory a
  own : ∀ a ∈ [s.current + 48, k.thread s.current, k.tss + 4],
    load s'.machine.memory a = load s.machine.memory a
  msr : s'.machine.msr 0x175 = s.machine.msr 0x175

/- copy_thread for a task_struct that do_fork has just allocated, with a pt_regs on the stack. -/
structure Forks (tsk regs : Nat) (p : PtRegs) (stack_start : Word) (s s' : State M) : Prop where
  valid : k.valid tsk
  not_boot : tsk ≠ k.init
  not_current : tsk ≠ s.current
  new : s.parked tsk = none
  low : s.current ≤ regs
  high : regs + 192 ≤ s.current + 32768
  frame : Words s.machine.memory regs p.words
  after : s' = { s with
    machine := { s.machine with
      memory := copyThread k s.current tsk regs stack_start s.machine.memory }
    parked := Function.update s.parked tsk
      (some (newTask k s.current tsk p stack_start s.machine.memory)) }

/- switch_to as schedule runs it: current is the block of the stack, and next a task that is
   there. -/
structure Switches (t : Nat) (s s' : State M) : Prop where
  prev : s.machine.reg .rdi = s.machine.reg .rsp &&& (-32768 : Word)
  next : s.machine.reg .rsi = BitVec.ofNat 64 t
  low : s.current + 320 ≤ s.machine.sp
  high : s.machine.sp < s.current + 32768
  waits : (s.leave t).isSome
  machine : ∃ m, SwitchesTo k.tss (t + 296) (run status (switchTo k.label
      (threadOf s.machine.memory (prevOf s.machine)) (threadOf s.machine.memory (nextOf s.machine)))
      s.machine) m ∧ s'.machine = continues k status m
  current : s'.current = t
  parked : s'.parked = Function.update s.leave t none

inductive Event where
  | work
  | fork (tsk : Nat)
  | reap (tsk : Nat)
  | switch (next : Nat)

inductive Step : State M → Event → State M → Prop where
  | work {s s' : State M} : Works k s s' → Step s .work s'
  | fork {s s' : State M} {tsk : Nat} (regs : Nat) (p : PtRegs) (stack_start : Word) :
      Forks k tsk regs p stack_start s s' → Step s (.fork tsk) s'
  | reap {s : State M} (tsk : Nat) :
      Step s (.reap tsk) { s with parked := Function.update s.parked tsk none }
  | switch {s s' : State M} {t : Nat} : Switches k status t s s' → Step s (.switch t) s'

structure Boot (s : State M) : Prop where
  current : s.current = k.init
  parked : ∀ t, s.parked t = none
  places : Places k s.machine.memory k.init
  msr : s.machine.msr 0x175 = BitVec.ofNat 64 (k.init + 32768)
  tss : load s.machine.memory (k.tss + 4) = BitVec.ofNat 64 (k.init + 32768)

/- The task that runs enters the kernel on its own stack, and the others can run again. -/
structure Inv (s : State M) : Prop where
  valid : k.valid s.current
  places : Places k s.machine.memory s.current
  msr : s.machine.msr 0x175 = BitVec.ofNat 64 (s.current + 32768)
  tss : load s.machine.memory (k.tss + 4) = BitVec.ofNat 64 (s.current + 32768)
  alone : s.parked s.current = none
  waits : ∀ t p, s.parked t = some p → k.valid t ∧ Waits k s.machine.memory t p

variable {k status}

theorem inv_boot {s : State M} (boot : Boot k s) : Inv k s := by
  obtain ⟨current, parked, places, msr, tss⟩ := boot
  refine ⟨?_, ?_, ?_, ?_, parked _, fun t p some_parked => ?_⟩
  · exact current ▸ k.init_valid
  · exact current.symm ▸ places
  · exact current.symm ▸ msr
  · exact current.symm ▸ tss
  · simp [parked] at some_parked

theorem inv_work {s s' : State M} (inv : Inv k s) (works : Works k s s') : Inv k s' := by
  have own (a : Nat) (member : a ∈ [s.current + 48, k.thread s.current, k.tss + 4]) :=
    works.own a member
  constructor
  · exact works.current.symm ▸ inv.valid
  · rw [works.current]
    exact ⟨(own _ (by simp)).trans inv.places.pointer, (own _ (by simp)).trans inv.places.rsp0⟩
  · rw [works.current, works.msr]
    exact inv.msr
  · rw [works.current, own _ (by simp)]
    exact inv.tss
  · rw [works.current, works.parked]
    exact inv.alone
  · intro t p some_parked
    rw [works.parked] at some_parked
    obtain ⟨valid, waits⟩ := inv.waits t p some_parked
    exact ⟨valid, waits_congr (works.others t p some_parked) waits⟩

theorem inv_reap {s : State M} (inv : Inv k s) (tsk : Nat) :
    Inv k { s with parked := Function.update s.parked tsk none } := by
  refine ⟨inv.valid, inv.places, inv.msr, inv.tss, ?_, fun t p some_parked => ?_⟩
  · by_cases same : s.current = tsk
    · simp [same]
    · simp [same, inv.alone]
  · by_cases same : t = tsk
    · simp [same] at some_parked
    · simp only [Function.update_of_ne same] at some_parked
      exact inv.waits t p some_parked

theorem inv_fork {s s' : State M} {tsk regs : Nat} {p : PtRegs} {stack_start : Word}
    (inv : Inv k s) (forks : Forks k tsk regs p stack_start s s') : Inv k s' := by
  have kept {u a : Nat} (valid : k.valid u) (other : tsk ≠ u) (owns : k.Owns u a) :
      load (copyThread k s.current tsk regs stack_start s.machine.memory) a =
        load s.machine.memory a :=
    copyThread_apart (Space.owns_block forks.valid valid other owns)
  have own (a : Nat) := kept (a := a) inv.valid forks.not_current
  have pointer := own _ (.inl (by omega : s.current ≤ s.current + 48 ∧ _))
  have rsp0 := own _ (Space.owns_thread (i := 0) (by omega))
  have block := k.tss_apart tsk forks.valid
  rw [forks.after]
  refine ⟨inv.valid, ⟨?_, ?_⟩, inv.msr, ?_, ?_, fun t q some_parked => ?_⟩
  · exact pointer.trans inv.places.pointer
  · exact rsp0.trans inv.places.rsp0
  · exact (copyThread_apart (by omega)).trans inv.tss
  · exact (Function.update_of_ne forks.not_current.symm _ _).trans inv.alone
  · by_cases same : t = tsk
    · subst same
      simp only [Function.update_self, Option.some.injEq] at some_parked
      subst some_parked
      have apart : regs + 192 ≤ t ∨ t + 32768 ≤ regs := by
        have first := k.aligned t forks.valid
        have second := k.aligned _ inv.valid
        have other := forks.not_current
        have low := forks.low
        have high := forks.high
        omega
      exact ⟨forks.valid, copyThread_waits forks.valid forks.not_boot inv.valid
        forks.not_current.symm inv.places forks.frame apart⟩
    · simp only [Function.update_of_ne same] at some_parked
      obtain ⟨valid, waits⟩ := inv.waits t q some_parked
      have above := (Parked.fits_sp waits.fits).1
      exact ⟨valid, waits_congr (fun a needs => kept valid (Ne.symm same)
        (Space.owns_needs (by omega) needs)) waits⟩

@[simp] theorem continues_memory (m : Machine M) : (continues k status m).memory = m.memory := by
  by_cases here : m.rip = k.label
  · simp [continues, here, resume, exec, Machine.drop]
  · simp [continues, here]

@[simp] theorem continues_msr (m : Machine M) : (continues k status m).msr = m.msr := by
  by_cases here : m.rip = k.label
  · simp [continues, here]
  · simp [continues, here]

theorem switches_switched {s s' : State M} {t : Nat} (inv : Inv k s)
    (switches : Switches k status t s s') : ∃ p m, s.leave t = some p ∧ k.valid t ∧
      Switched k s.current t p s.machine m ∧ s'.machine = continues k status m := by
  obtain ⟨p, leave⟩ := Option.isSome_iff_exists.mp switches.waits
  obtain ⟨m, ran, after⟩ := switches.machine
  have low := switches.low
  have high := switches.high
  have leaves : Leaves k s.current s.machine := ⟨inv.valid, inv.places, low, high⟩
  have aligned := k.aligned _ inv.valid
  have prev : prevOf s.machine = s.current := by
    rw [prevOf, switches.prev, current_toNat]
    simp only [Machine.sp] at low high
    omega
  have found : k.valid t ∧ Places k s.machine.memory t ∧
      ((t = s.current ∧ p = .left s.machine) ∨ (t ≠ s.current ∧ Waits k s.machine.memory t p)) := by
    by_cases same : t = s.current
    · subst same
      simp only [State.leave, Function.update_self, Option.some.injEq] at leave
      exact ⟨inv.valid, inv.places, .inl ⟨rfl, leave.symm⟩⟩
    · simp only [State.leave, Function.update_of_ne same] at leave
      obtain ⟨valid, waits⟩ := inv.waits t p leave
      exact ⟨valid, waits.places, .inr ⟨same, waits⟩⟩
  obtain ⟨valid, places, waits⟩ := found
  have bound := k.bound t valid
  have next : nextOf s.machine = t := by
    rw [nextOf, switches.next, BitVec.toNat_ofNat]
    omega
  have apart : k.thread s.current = k.thread t ∨ k.thread t + 24 ≤ k.thread s.current ∨
      k.thread s.current + 24 ≤ k.thread t := by
    by_cases same : s.current = t
    · exact .inl (congrArg k.thread same)
    · have first := Space.thread_cases (k := k) s.current
      have second := Space.thread_cases (k := k) t
      have first_block := k.thread_apart _ inv.valid
      have second_block := k.thread_apart t valid
      have second_aligned := k.aligned t valid
      omega
  rw [prev, next, inv.places.threadOf inv.valid, places.threadOf valid,
    run_switchTo (by omega) apart] at ran
  exact ⟨p, m, leave, valid, switched_of ⟨leaves, valid, prev, next, waits⟩ ran, after⟩

theorem inv_switch {s s' : State M} {t : Nat} (inv : Inv k s)
    (switches : Switches k status t s s') : Inv k s' := by
  obtain ⟨p, m, leave, valid, switched, after⟩ := switches_switched inv switches
  have memory : s'.machine.memory = m.memory := by rw [after, continues_memory]
  have msr : s'.machine.msr = m.msr := by rw [after, continues_msr]
  constructor
  · exact switches.current.symm ▸ valid
  · rw [switches.current, memory]
    exact switched.places
  · rw [switches.current, msr, switched.msr, Function.update_self]
  · rw [switches.current, memory]
    exact switched.tss
  · rw [switches.current, switches.parked, Function.update_self]
  · intro u q some_parked
    rw [switches.parked] at some_parked
    by_cases next : u = t
    · simp [next] at some_parked
    · rw [Function.update_of_ne next] at some_parked
      by_cases left : u = s.current
      · subst left
        simp only [State.leave, Function.update_self, Option.some.injEq] at some_parked
        subst some_parked
        rw [memory]
        exact ⟨inv.valid, switched.left next⟩
      · simp only [State.leave, Function.update_of_ne left] at some_parked
        obtain ⟨other, waits⟩ := inv.waits u q some_parked
        have above := (Parked.fits_sp waits.fits).1
        rw [memory]
        exact ⟨other, waits_congr (fun a needs => switched.others u other left next a
          (Space.owns_needs (by omega) needs)) waits⟩

theorem inv_step (s : State M) (e : Event) (s' : State M) (inv : Inv k s)
    (step : Step k status s e s') : Inv k s' := by
  cases step with
  | work works => exact inv_work inv works
  | fork regs p stack_start forks => exact inv_fork inv forks
  | reap tsk => exact inv_reap inv tsk
  | switch switches => exact inv_switch inv switches

theorem parked_step {s s' : State M} {e : Event} {t : Nat} {p : Parked M} (inv : Inv k s)
    (step : Step k status s e s') (some_parked : s.parked t = some p) (not_next : e ≠ .switch t)
    (not_reaped : e ≠ .reap t) : s'.parked t = some p := by
  cases step with
  | work works => rw [works.parked, some_parked]
  | @fork _ tsk regs q stack_start forks =>
    have other : t ≠ tsk := fun same => by
      have new := forks.new
      rw [← same, some_parked] at new
      cases new
    rw [forks.after]
    exact (Function.update_of_ne other _ _).trans some_parked
  | reap tsk =>
    have other : t ≠ tsk := fun same => not_reaped (same ▸ rfl)
    exact (Function.update_of_ne other _ _).trans some_parked
  | @switch _ next switches =>
    have other : t ≠ next := fun same => not_next (same ▸ rfl)
    have not_current : t ≠ s.current := fun same => by
      have alone := inv.alone
      rw [← same, some_parked] at alone
      cases alone
    rw [switches.parked, Function.update_of_ne other, State.leave,
      Function.update_of_ne not_current, some_parked]

theorem parked_run {s s' : State M} {es : List Event} {t : Nat} {p : Parked M} (inv : Inv k s)
    (run : Run.Steps (Step k status) s es s') (some_parked : s.parked t = some p)
    (not_next : .switch t ∉ es) (not_reaped : .reap t ∉ es) :
    Inv k s' ∧ s'.parked t = some p := by
  induction run with
  | nil => exact ⟨inv, some_parked⟩
  | cons first rest ih =>
    simp only [List.mem_cons, not_or] at not_next not_reaped
    exact ih (inv_step _ _ _ inv first)
      (parked_step inv first some_parked (Ne.symm not_next.1) (Ne.symm not_reaped.1))
      not_next.2 not_reaped.2

/- The kernel is entered on the stack of the task that runs, and current is that task. -/
structure OnOwnStack (k : Space) (t : Nat) (m : Machine M) : Prop where
  sysenter : m.msr 0x175 = BitVec.ofNat 64 (t + 32768)
  tss : load m.memory (k.tss + 4) = BitVec.ofNat 64 (t + 32768)
  current : m.reg .rsp &&& (-32768 : Word) = BitVec.ofNat 64 t

/- A task behind the switch_to that it left by; some registers are those of the task before it. -/
structure Resumed (k : Space) (t : Nat) (left before m : Machine M) : Prop where
  rip : m.rip = k.label
  reg : ∀ r ∈ [Reg.rax, .rbp, .rsp], m.reg r = left.reg r
  others : ∀ r ∈ [Reg.rbx, .r12, .r13, .r14, .r15], m.reg r = before.reg r
  fs : m.seg .fs = left.seg .fs
  gs : m.seg .gs = left.seg .gs
  stack : ∀ a, left.sp ≤ a → a + 8 ≤ t + 32768 → load m.memory a = load left.memory a
  own : OnOwnStack k t m

/- A new task at its entry. -/
structure Began (k : Space) (t : Nat) (p : PtRegs) (entry : Word) (m : Machine M) : Prop where
  rip : m.rip = entry
  rsp : m.reg .rsp = BitVec.ofNat 64 (childregs t)
  frame : Words m.memory (childregs t) p.words
  own : OnOwnStack k t m

theorem current_eq {t : Nat} {w : Word} (valid : k.valid t) (low : t ≤ w.toNat)
    (high : w.toNat < t + 32768) : w &&& (-32768 : Word) = BitVec.ofNat 64 t := by
  have aligned := k.aligned t valid
  have bound := k.bound t valid
  apply BitVec.eq_of_toNat_eq
  rw [current_toNat, BitVec.toNat_ofNat]
  omega

theorem run_resume (status : Instr → Machine M → Word) {m m₀ : Machine M} {t : Nat}
    (low : 16 ≤ m₀.sp)
    (rsp : m.reg .rsp = BitVec.ofNat 64 (m₀.sp - 16)) (stack : (Parked.left m₀).Stack t m.memory) :
    (run status resume m).reg .rax = m₀.reg .rax ∧ (run status resume m).reg .rbp = m₀.reg .rbp ∧
      (run status resume m).reg .rsp = m₀.reg .rsp := by
  obtain ⟨rax, rbp, -⟩ := stack
  have small : m₀.sp < 2 ^ 64 := (m₀.reg .rsp).isLt
  have first : (BitVec.ofNat 64 (m₀.sp - 16)).toNat = m₀.sp - 16 := by
    rw [BitVec.toNat_ofNat]
    omega
  have second : (BitVec.ofNat 64 (m₀.sp - 16) + 8 : Word).toNat = m₀.sp - 8 := by
    rw [BitVec.toNat_add, first]
    simp
    omega
  have last : (BitVec.ofNat 64 (m₀.sp - 16) + 8 + 8 : Word) = m₀.reg .rsp := by
    apply BitVec.eq_of_toNat_eq
    rw [BitVec.toNat_add, second]
    simp only [Machine.sp] at low small ⊢
    simp
    omega
  have top : load m.memory (m.reg .rsp).toNat = m₀.reg .rax := by rw [rsp, first, rax]
  have next : load m.memory (m.reg .rsp + 8).toNat = m₀.reg .rbp := by rw [rsp, second, rbp]
  rw [← rsp] at last
  simp only [resume, run_cons, run_nil, exec, Machine.drop, Machine.top, Machine.sp,
    Machine.set_reg, Machine.set_memory, Function.update_self, ne_eq, reduceCtorEq,
    not_false_eq_true, Function.update_of_ne, top, next, last, and_self]

theorem own_of {s : State M} (inv : Inv k s) (low : s.current ≤ s.machine.sp)
    (high : s.machine.sp < s.current + 32768) : OnOwnStack k s.current s.machine :=
  ⟨inv.msr, inv.tss, current_eq inv.valid low high⟩

theorem resumed_of_switch {s s' : State M} {t : Nat} {m₀ : Machine M} (inv : Inv k s)
    (switches : Switches k status t s s') (was : s.leave t = some (.left m₀)) :
    Resumed k t m₀ s.machine s'.machine := by
  have inv' := inv_switch inv switches
  obtain ⟨p, m, leave, valid, switched, after⟩ := switches_switched inv switches
  rw [was, Option.some.injEq] at leave
  subst leave
  obtain ⟨low, high⟩ : t + 320 ≤ m₀.sp ∧ m₀.sp < t + 32768 := by
    by_cases same : t = s.current
    · subst same
      simp only [State.leave, Function.update_self, Option.some.injEq, Parked.left.injEq] at was
      exact was ▸ ⟨switches.low, switches.high⟩
    · simp only [State.leave, Function.update_of_ne same] at was
      exact (inv.waits t _ was).2.fits
  have rip : m.rip = k.label := switched.rip
  have here : s'.machine = run status resume m := by rw [after, continues, if_pos rip]
  obtain ⟨rax, rbp, rsp⟩ := run_resume status (by omega) switched.rsp switched.stack
  have memory : s'.machine.memory = m.memory := by rw [after, continues_memory]
  have sp : s'.machine.sp = m₀.sp := by rw [here, Machine.sp, rsp, Machine.sp]
  have current := switches.current
  constructor
  · rw [here, run_rip, rip]
  · intro r member
    simp only [List.mem_cons, List.not_mem_nil, or_false] at member
    rw [here]
    rcases member with rfl | rfl | rfl
    · exact rax
    · exact rbp
    · exact rsp
  · intro r member
    have kept : (run status resume m).reg r = m.reg r := by
      simp only [List.mem_cons, List.not_mem_nil, or_false] at member
      rcases member with rfl | rfl | rfl | rfl | rfl <;> rfl
    rw [here, kept]
    apply switched.reg r
    simp only [List.mem_cons, List.not_mem_nil, or_false] at member ⊢
    tauto
  · have kept : (run status resume m).seg .fs = m.seg .fs := rfl
    rw [here, kept, switched.fs]
    simp [Parked.fs]
  · have kept : (run status resume m).seg .gs = m.seg .gs := rfl
    rw [here, kept, switched.gs]
    simp [Parked.gs]
  · intro a above below
    rw [memory]
    exact switched.stack.2.2 a above below
  · exact current ▸ own_of inv' (by omega) (by omega)

theorem began_of_switch {s s' : State M} {t : Nat} {p : PtRegs} {entry fs gs : Word} (inv : Inv k s)
    (switches : Switches k status t s s') (was : s.leave t = some (.fresh p entry fs gs))
    (other : entry ≠ k.label) : Began k t p entry s'.machine := by
  have inv' := inv_switch inv switches
  obtain ⟨q, m, leave, valid, switched, after⟩ := switches_switched inv switches
  rw [was, Option.some.injEq] at leave
  subst leave
  have rip : m.rip = entry := switched.rip
  have here : s'.machine = m := by rw [after, continues, if_neg (rip ▸ other)]
  have top := childregs_add t
  have bound := k.bound t valid
  have rsp : m.reg .rsp = BitVec.ofNat 64 (childregs t) := switched.rsp
  have sp : s'.machine.sp = childregs t := by
    rw [here, Machine.sp, rsp, BitVec.toNat_ofNat]
    omega
  have current := switches.current
  refine ⟨?_, ?_, ?_, ?_⟩
  · rw [here, rip]
  · rw [here, rsp]
  · rw [here]
    exact switched.stack
  · exact current ▸ own_of inv' (by omega) (by omega)

section main
variable {s₀ s s₁ s₂ s₃ : State M} {earlier es : List Event}

/-- A task that another is switched to comes back behind its own switch_to, whatever runs in
    between: with its stack, with rax, rbp, rsp, fs and gs as it left them, and with the kernel's
    entries and current on its own stack again. The other registers that a function keeps for its
    caller are those of the task that ran before it. -/
theorem task_resumes (boot : Boot k s₀) (before : Run.Steps (Step k status) s₀ earlier s) {u : Nat}
    (left : Step k status s (.switch u) s₁) (other : u ≠ s.current)
    (meanwhile : Run.Steps (Step k status) s₁ es s₂) (away : .switch s.current ∉ es)
    (alive : .reap s.current ∉ es) (back : Step k status s₂ (.switch s.current) s₃) :
    Resumed k s.current s.machine s₂.machine s₃.machine := by
  have inv := Run.invariant_of_step inv_step before (inv_boot boot)
  cases left with
  | switch switches =>
    have parked : s₁.parked s.current = some (.left s.machine) := by
      rw [switches.parked, Function.update_of_ne other.symm, State.leave, Function.update_self]
    obtain ⟨inv₂, still⟩ := parked_run (inv_switch inv switches) meanwhile parked away alive
    cases back with
    | switch returns =>
      have not_current : s.current ≠ s₂.current := fun same => by
        have alone := inv₂.alone
        rw [← same, still] at alone
        cases alone
      apply resumed_of_switch inv₂ returns
      rw [State.leave, Function.update_of_ne not_current, still]

/-- And a task that copy_thread has made begins, when it is switched to for the first time, at its
    entry with the parent's pt_regs on top of its own stack. -/
theorem child_begins (boot : Boot k s₀) (before : Run.Steps (Step k status) s₀ earlier s)
    {tsk regs : Nat} {p : PtRegs} {stack_start : Word} (forks : Forks k tsk regs p stack_start s s₁)
    (meanwhile : Run.Steps (Step k status) s₁ es s₂) (away : .switch tsk ∉ es)
    (alive : .reap tsk ∉ es) (starts : Step k status s₂ (.switch tsk) s₃) :
    Began k tsk (childFrame p stack_start) (childEntry k tsk s.machine.memory) s₃.machine := by
  have inv := Run.invariant_of_step inv_step before (inv_boot boot)
  have parked : s₁.parked tsk = some (newTask k s.current tsk p stack_start s.machine.memory) := by
    rw [forks.after]
    exact Function.update_self ..
  obtain ⟨inv₂, still⟩ := parked_run (inv_fork inv forks) meanwhile parked away alive
  cases starts with
  | switch begins =>
    have not_current : tsk ≠ s₂.current := fun same => by
      have alone := inv₂.alone
      rw [← same, still] at alone
      cases alone
    have entry : childEntry k tsk s.machine.memory ≠ k.label := by
      rw [childEntry]
      split
      · exact k.entries.2.symm
      · exact k.entries.1.symm
    have was : s₂.leave tsk = some (newTask k s.current tsk p stack_start s.machine.memory) := by
      rw [State.leave, Function.update_of_ne not_current, still]
    exact began_of_switch inv₂ begins was entry

variable {routine : Word → Machine M → Machine M → Prop} {out : Option (Machine M)}

theorem began_holds {t : Nat} {p : PtRegs} {entry : Word} {m : Machine M} (valid : k.valid t)
    (began : Began k t p entry m) :
    Holds ⟨0, fun _ => True⟩ m m ⟨m.reg, m.seg, p.words, t + 32768, 1⟩ := by
  have top := childregs_add t
  have bound := k.bound t valid
  have length : p.words.length = 24 := rfl
  have sp : m.sp = childregs t := by
    rw [Machine.sp, began.rsp, BitVec.toNat_ofNat]
    omega
  refine ⟨⟨fun _ _ => rfl, rfl, ?_, ?_, bound, ?_⟩, Nat.zero_le _, fun _ _ _ => trivial,
    fun _ _ _ => rfl⟩
  · exact sp ▸ began.frame
  · rw [sp, length]
    omega
  · show 8 * 1 ≤ m.sp
    omega

/-- What fork returns: the child of a user's task leaves the kernel where its parent's system call
    came from, with all registers as the parent's call left them, but for rax, which is 0. -/
theorem forked_returns (boot : Boot k s₀) (before : Run.Steps (Step k status) s₀ earlier s)
    {tsk regs : Nat} {p : PtRegs} {stack_start : Word} (forks : Forks k tsk regs p stack_start s s₁)
    (user : load s.machine.memory (tsk + 8) &&& 1 = 0)
    (meanwhile : Run.Steps (Step k status) s₁ es s₂) (away : .switch tsk ∉ es)
    (alive : .reap tsk ∉ es) (starts : Step k status s₂ (.switch tsk) s₃)
    (runs : Runs status routine (CallLabels.retSystemCall (.leave sysexit)) s₃.machine out) :
    s₃.machine.rip = k.ret_system_call ∧ ∃ m, out = some m ∧
      UserBack (childFrame p stack_start) ((s₃.machine.msr 0x174).setWidth 16) m ∧
      m.reg = Function.update (sysReg p) .rax 0 := by
  have began := child_begins boot before forks meanwhile away alive starts
  have entry : childEntry k tsk s.machine.memory = k.ret_system_call := by
    rw [childEntry, if_neg (not_not.mpr user)]
  have ensures : Ensures status routine (CallLabels.retSystemCall (.leave sysexit))
      (UserBack (childFrame p stack_start) ((s₃.machine.msr 0x174).setWidth 16)) s₃.machine :=
    retSystemCall_ensures (began_holds forks.valid began) rfl fun m back _ _ => back
  obtain ⟨m, same, back⟩ := ensures_run runs ensures
  refine ⟨began.rip.trans entry, m, same, back, ?_⟩
  rw [back.reg]
  funext r
  cases r <;> rfl

def kernelThreadFunc (after_fn do_exit after_exit : Word) : Flow M :=
  .run (popRegs ++ [.add 0x38 .rsp, .mov .rdx .rdi]) <|
    call (fun m => m.reg .rbx) after_fn <|
      .run [.mov .rax .rdi] <| call (fun _ => do_exit) after_exit <| .leave id

def kernelThreadRegs (k : Space) (fn arg : Word) : PtRegs where
  r15 := 0
  r14 := 0
  r13 := 0
  r12 := 0
  r11 := 0
  r10 := 0
  r9 := 0
  r8 := 0
  rbx := fn
  rcx := 0
  rdx := arg
  rsi := 0
  rdi := 0
  rbp := 0
  ds := 0x10
  es := 0x10
  rax := 0
  func := 0
  errcode := 0
  rip := k.kernel_thread_func
  cs := 0x08
  rflags := 0x200
  rsp := 0
  ss := 0x10

theorem kernelThread_called {t : Nat} {p : PtRegs} {entry : Word} {m : Machine M} (after_fn : Word)
    (valid : k.valid t) (began : Began k t p entry m) {b : Machine M}
    (called : b = run status [.pushImm after_fn]
      (run status (popRegs ++ [.add 0x38 .rsp, .mov .rdx .rdi]) m)) :
    b.reg .rbx = p.rbx ∧ b.reg .rdi = p.rdx ∧ b.top = after_fn ∧ b.sp + 8 = t + 32768 := by
  obtain ⟨⟨regs, segs, _, _, _⟩, popped, values, rfl, rfl, rfl, rfl⟩ :=
    run_popRegs m.seg p.above (t + 32768) p m.reg 1
  obtain ⟨segs, ran⟩ : ∃ segs,
      View.run ((popRegs ++ [.add 0x38 .rsp, .mov .rdx .rdi]) ++ [.pushImm after_fn])
        ⟨m.reg, m.seg, p.words, t + 32768, 1⟩ =
          some ⟨Function.update regs .rdi (regs .rdx), segs, [after_fn], t + 32768, 0⟩ := by
    exact ⟨_, by rw [View.run_append, View.run_append, PtRegs.words, popped]; rfl⟩
  have ready : Holds _ m (run status _ m) _ := (began_holds valid began).run _ ran
  rw [run_append, ← called] at ready
  have shows := ready.shows
  have rbx := shows.reg .rbx (by decide)
  have rdi := shows.reg .rdi (by decide)
  refine ⟨?_, ?_, shows.words.1, shows.ends⟩
  · rw [rbx]
    exact values .rbx (by decide)
  · rw [rdi]
    exact values .rdx (by decide)

/-- A kernel thread calls its function with its argument, on the whole of its stack, and after that
    do_exit with what the function returned; it calls nothing else. -/
theorem kernel_thread_calls (boot : Boot k s₀) (before : Run.Steps (Step k status) s₀ earlier s)
    {tsk regs : Nat} {fn arg after_fn do_exit after_exit : Word}
    (forks : Forks k tsk regs (kernelThreadRegs k fn arg) 0 s s₁)
    (kernel : load s.machine.memory (tsk + 8) &&& 1 ≠ 0)
    (meanwhile : Run.Steps (Step k status) s₁ es s₂) (away : .switch tsk ∉ es)
    (alive : .reap tsk ∉ es) (starts : Step k status s₂ (.switch tsk) s₃) {f : Word} {b : Machine M}
    (enters : Enters status routine (kernelThreadFunc after_fn do_exit after_exit) s₃.machine f b) :
    s₃.machine.rip = k.kernel_thread_func ∧
      ((f = fn ∧ b.reg .rdi = arg ∧ b.top = after_fn ∧ b.sp + 8 = tsk + 32768) ∨
        (f = do_exit ∧ ∃ a c, routine fn a c ∧ a.reg .rdi = arg ∧ b.reg .rdi = c.reg .rax)) := by
  have began := child_begins boot before forks meanwhile away alive starts
  have entry : childEntry k tsk s.machine.memory = k.kernel_thread_func := by
    rw [childEntry, if_pos kernel]
  refine ⟨began.rip.trans entry, ?_⟩
  obtain ⟨called, is_called⟩ : ∃ called, called = run status [.pushImm after_fn]
    (run status (popRegs ++ [.add 0x38 .rsp, .mov .rdx .rdi]) s₃.machine) := ⟨_, rfl⟩
  obtain ⟨rbx, rdi, top, sp⟩ := kernelThread_called after_fn forks.valid began is_called
  cases enters with
  | run enters =>
    cases enters with
    | run enters =>
      rw [← is_called] at enters
      cases enters with
      | here => exact .inl ⟨rbx, rdi, top, sp⟩
      | back returned rip rest =>
        have target : called.reg .rbx = fn := rbx
        simp only [target] at returned
        cases rest with
        | run rest =>
          cases rest with
          | run rest =>
            cases rest with
            | here => exact .inr ⟨rfl, _, _, returned, rdi, rfl⟩
            | back _ _ rest => cases rest

end main

end system

section small
open ByteMemory InterruptDelivery

/- A __switch_to that does no more than it must. -/
def plainSwitchTo (tss : Nat) (m : Machine M) : Machine M :=
  let memory := switchStores tss (prevOf m) (nextOf m) ((m.seg .fs).setWidth 64)
    ((m.seg .gs).setWidth 64) m.memory
  let thd := threadOf memory (nextOf m)
  { m.drop with
    seg := Function.update (Function.update m.seg .fs ((load memory (thd + 24)).setWidth 16)) .gs
      ((load memory (thd + 32)).setWidth 16)
    rip := load memory m.sp
    msr := Function.update m.msr 0x175 (load memory thd)
    memory }

theorem plainSwitchTo_switches (tss bottom : Nat) (m : Machine M) :
    SwitchesTo tss bottom m (plainSwitchTo tss m) := by
  constructor
  · rfl
  · simp [plainSwitchTo, Machine.drop]
  · intro r member
    have general : r ≠ .rsp := by
      rintro rfl
      simp at member
    simp [plainSwitchTo, Machine.drop, general]
  · intro s member
    have other : s ≠ .fs ∧ s ≠ .gs := by constructor <;> (rintro rfl; simp at member)
    simp [plainSwitchTo, other]
  · simp [plainSwitchTo]
  · simp [plainSwitchTo]
  · rfl
  · exact fun _ _ => rfl

def switchedTo (k : Space) (status : Instr → Machine M → Word) (t : Nat) (s : State M) :
    State M where
  machine := continues k status (plainSwitchTo k.tss (run status (switchTo k.label
    (threadOf s.machine.memory (prevOf s.machine)) (threadOf s.machine.memory (nextOf s.machine)))
    s.machine))
  current := t
  parked := Function.update s.leave t none

theorem switchedTo_step {k : Space} {status : Instr → Machine M → Word} {t : Nat} {s : State M}
    (prev : s.machine.reg .rdi = s.machine.reg .rsp &&& (-32768 : Word))
    (next : s.machine.reg .rsi = BitVec.ofNat 64 t) (low : s.current + 320 ≤ s.machine.sp)
    (high : s.machine.sp < s.current + 32768) (waits : (s.leave t).isSome) :
    Step k status s (.switch t) (switchedTo k status t s) :=
  .switch ⟨prev, next, low, high, waits, ⟨_, plainSwitchTo_switches _ _ _, rfl⟩, rfl, rfl⟩

def write : Nat → List Word → M → M
  | _, [], m => m
  | a, w :: ws, m => store (write (a + 8) ws m) a w

theorem write_words (a : Nat) (ws : List Word) (m : M) : Words (write a ws m) a ws := by
  induction ws generalizing a with
  | nil => trivial
  | cons w ws ih => exact ⟨load_store _ a w, words_store w (.inl le_rfl) (ih (a + 8))⟩

theorem write_apart {a b : Nat} {ws : List Word} (m : M)
    (apart : b + 8 ≤ a ∨ a + 8 * ws.length ≤ b) : load (write a ws m) b = load m b := by
  induction ws generalizing a with
  | nil => rfl
  | cons w ws ih =>
    simp only [List.length_cons] at apart
    rw [write, load_store_apart _ _ (by omega)]
    exact ih (by omega)

def smallSpace : Space where
  valid t := t = 0x10000 ∨ t = 0x18000
  init := 0x10000
  initThread := 0x4000
  tss := 0x5000
  label := 1
  ret_system_call := 2
  kernel_thread_func := 3
  init_valid := .inl rfl
  aligned t valid := by rcases valid with rfl | rfl <;> rfl
  bound t valid := by rcases valid with rfl | rfl <;> decide
  thread_bound := by decide
  thread_apart t valid := by rcases valid with rfl | rfl <;> decide
  tss_apart t valid := by rcases valid with rfl | rfl <;> decide
  tss_thread := by decide
  entries := by decide

def smallStart (flags : Word) (p : PtRegs) : State Memory where
  machine :=
    { reg r := if r = .rsp then 0x17000 else if r = .rsi then 0x18000 else 0x10000
      seg _ := 0x10
      rip := 0
      rflags := 0x202
      msr _ := 0x18000
      memory := write 0x17f40 p.words (write 0x18008 [flags] (write 0x10030 [0x4000]
        (write 0x5004 [0x18000] (write 0x4000 [0x18000] fun _ => 0)))) }
  current := 0x10000
  parked _ := none

section started
variable (flags : Word) (p : PtRegs) (stack_start : Word)

theorem smallStart_load {a : Nat} (apart : a + 8 ≤ 0x17f40 ∨ 0x18000 ≤ a) :
    load (smallStart flags p).machine.memory a = load (write 0x18008 [flags] (write 0x10030 [0x4000]
      (write 0x5004 [0x18000] (write 0x4000 [0x18000] fun _ => 0))) : Memory) a := by
  have length : p.words.length = 24 := rfl
  exact write_apart _ (by omega)

theorem smallStart_boot : Boot smallSpace (smallStart flags p) where
  current := rfl
  parked _ := rfl
  places := by
    constructor
    · show load (smallStart flags p).machine.memory 0x10030 = 0x4000
      rw [smallStart_load _ _ (by decide), write_apart _ (.inl (by decide))]
      exact load_store _ _ _
    · show load (smallStart flags p).machine.memory 0x4000 = 0x18000
      rw [smallStart_load _ _ (by decide), write_apart _ (.inl (by decide)),
        write_apart _ (by decide), write_apart _ (by decide)]
      exact load_store _ _ _
  msr := rfl
  tss := by
    show load (smallStart flags p).machine.memory 0x5004 = 0x18000
    rw [smallStart_load _ _ (by decide), write_apart _ (.inl (by decide)),
      write_apart _ (by decide)]
    exact load_store _ _ _

def smallForked : State Memory :=
  let s := smallStart flags p
  { s with
    machine := { s.machine with
      memory := copyThread smallSpace s.current 0x18000 0x17f40 stack_start s.machine.memory }
    parked := Function.update s.parked 0x18000
      (some (newTask smallSpace s.current 0x18000 p stack_start s.machine.memory)) }

theorem smallForked_forks : Forks smallSpace 0x18000 0x17f40 p stack_start (smallStart flags p)
    (smallForked flags p stack_start) where
  valid := .inr rfl
  not_boot := by decide
  not_current := (by decide : 0x18000 ≠ 0x10000)
  new := rfl
  low := (by decide : 0x10000 ≤ 0x17f40)
  high := (by decide : 0x17f40 + 192 ≤ 0x10000 + 32768)
  frame := write_words _ _ _
  after := rfl

theorem smallForked_switch (status : Instr → Machine Memory → Word) :
    Step smallSpace status (smallForked flags p stack_start) (.switch 0x18000)
      (switchedTo smallSpace status 0x18000 (smallForked flags p stack_start)) := by
  refine switchedTo_step ?_ ?_ ?_ ?_ ?_
  · show (0x10000 : Word) = (0x17000 : Word) &&& -32768
    decide
  · rfl
  · show 0x10000 + 320 ≤ 0x17000
    decide
  · show 0x17000 < 0x10000 + 32768
    decide
  · rfl

end started

def smallFrame : PtRegs := kernelThreadRegs smallSpace 5 7

theorem forked_returns_small : ∃ m, Runs (fun _ m => m.rflags) idle
    (CallLabels.retSystemCall (.leave sysexit))
      (switchedTo smallSpace (fun _ m => m.rflags) 0x18000 (smallForked 0 smallFrame 9)).machine
      (some m) ∧ m.reg = Function.update (sysReg smallFrame) .rax 0 := by
  have user : load (smallStart 0 smallFrame).machine.memory (0x18000 + 8) &&& 1 = 0 := by
    rw [smallStart_load _ _ (by decide)]
    show load (store _ 0x18008 0) 0x18008 &&& 1 = 0
    rw [load_store]
    decide
  obtain ⟨out, runs⟩ := idle_runs (CallLabels.retSystemCall (.leave sysexit))
    (switchedTo smallSpace (fun _ m => m.rflags) 0x18000 (smallForked 0 smallFrame 9)).machine
  obtain ⟨-, m, rfl, -, reg⟩ := forked_returns (smallStart_boot 0 smallFrame) (.nil _)
    (smallForked_forks 0 smallFrame 9) user (.nil _) (by simp) (by simp)
    (smallForked_switch 0 smallFrame 9 _) runs
  exact ⟨m, runs, reg⟩

def returning (_ : Word) (m m' : Machine Memory) : Prop := m' = (retq m).set .rax 9

/- The thread's function 5 gets 7, and do_exit gets what it returned. -/
theorem kernel_thread_calls_exit : ∃ b, Enters (fun _ m => m.rflags) returning
    (kernelThreadFunc 20 21 22) (switchedTo smallSpace (fun _ m => m.rflags) 0x18000
      (smallForked 1 smallFrame 0)).machine 21 b ∧ b.reg .rdi = 9 := by
  have kernel : load (smallStart 1 smallFrame).machine.memory (0x18000 + 8) &&& 1 ≠ 0 := by
    rw [smallStart_load _ _ (by decide)]
    show load (store _ 0x18008 1) 0x18008 &&& 1 ≠ 0
    rw [load_store]
    decide
  have starts := smallForked_switch 1 smallFrame 0 fun _ m => m.rflags
  have forks := smallForked_forks 1 smallFrame 0
  have began := child_begins (smallStart_boot 1 smallFrame) (.nil _) forks (.nil _) (by simp)
    (by simp) starts
  obtain ⟨_, _, top, _⟩ := kernelThread_called 20 forks.valid began rfl
  have enters : Enters (fun _ m => m.rflags) returning (kernelThreadFunc 20 21 22) (switchedTo smallSpace
      (fun _ m => m.rflags) 0x18000 (smallForked 1 smallFrame 0)).machine 21 _ :=
    .run (.run (.back rfl top (.run (.run .here))))
  refine ⟨_, enters, ?_⟩
  rcases (kernel_thread_calls (smallStart_boot 1 smallFrame) (.nil _) forks kernel (.nil _) (by simp)
    (by simp) starts enters).2 with ⟨other, _⟩ | ⟨_, a, c, returned, _, rdi⟩
  · exact absurd other (by decide)
  · rw [rdi, returned]
    simp

def smallTurn (status : Instr → Machine Memory → Word) : State Memory :=
  let s := switchedTo smallSpace status 0x18000 (smallForked 0 smallFrame 9)
  { s with machine := (s.machine.set .rdi 0x18000).set .rsi 0x10000 }

theorem task_resumes_small : ∃ s₃, Step smallSpace (fun _ m => m.rflags)
    (smallTurn fun _ m => m.rflags) (.switch 0x10000) s₃ ∧
      Resumed smallSpace 0x10000 (smallForked 0 smallFrame 9).machine
        (smallTurn fun _ m => m.rflags).machine s₃.machine := by
  have switch := smallForked_switch 0 smallFrame 9 fun _ m => m.rflags
  have began := child_begins (smallStart_boot 0 smallFrame) (.nil _)
    (smallForked_forks 0 smallFrame 9) (.nil _) (by simp) (by simp) switch
  have rsp : (smallTurn fun _ m => m.rflags).machine.reg .rsp =
      BitVec.ofNat 64 (childregs 0x18000) := by
    simpa [smallTurn] using began.rsp
  have current : (smallTurn fun _ m => m.rflags).machine.reg .rsp &&& (-32768 : Word) =
      BitVec.ofNat 64 0x18000 := by
    simpa only [rsp, began.rsp] using began.own.current
  have place : childregs 0x18000 = 0x1ff40 := by
    have top := childregs_add 0x18000
    omega
  have sp : (smallTurn fun _ m => m.rflags).machine.sp = 0x1ff40 := by
    simp [Machine.sp, rsp, place]
  have turn : Step smallSpace (fun _ m => m.rflags) (switchedTo smallSpace (fun _ m => m.rflags)
      0x18000 (smallForked 0 smallFrame 9)) .work (smallTurn fun _ m => m.rflags) :=
    .work ⟨rfl, rfl, fun _ _ _ _ _ => by simp [smallTurn], fun _ _ => by simp [smallTurn],
      by simp [smallTurn, Machine.set]⟩
  have rdi : (smallTurn fun _ m => m.rflags).machine.reg .rdi = BitVec.ofNat 64 0x18000 := by
    simp [smallTurn]
  have rsi : (smallTurn fun _ m => m.rflags).machine.reg .rsi = BitVec.ofNat 64 0x10000 := by
    simp [smallTurn]
  have low : 0x18000 + 320 ≤ 0x1ff40 := by decide
  have high : 0x1ff40 < 0x18000 + 32768 := by decide
  have back : Step smallSpace (fun _ m => m.rflags) _ (.switch 0x10000) _ :=
    switchedTo_step (rdi.trans current.symm) rsi (sp ▸ low) (sp ▸ high) rfl
  have forked : Step smallSpace (fun _ m => m.rflags) (smallStart 0 smallFrame) (.fork 0x18000)
      (smallForked 0 smallFrame 9) := .fork _ _ _ (smallForked_forks 0 smallFrame 9)
  exact ⟨_, back, task_resumes (smallStart_boot 0 smallFrame) (.cons forked (.nil _)) switch
    (by decide) (.cons turn (.nil _)) (by simp) (by simp) back⟩

end small

end TaskSwitch

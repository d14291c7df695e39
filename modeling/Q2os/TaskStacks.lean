import Q2os.EntryFrames

/- The stacks of tasks that do not run, and switch_to with __switch_to from one stack to another. -/
namespace TaskStacks
open StackMachine EntryFrames
variable {M : Type} [WordMemory M]

/- The blocks that tasks are given, with the task_struct at the start and the stack at the end; the
   thread_struct of the boot task and the task state segment are outside of them. -/
structure Space where
  valid : Nat → Prop
  init : Nat
  initThread : Nat
  tss : Nat
  label : Word
  ret_system_call : Word
  kernel_thread_func : Word
  init_valid : valid init
  aligned : ∀ t, valid t → t % 32768 = 0
  bound : ∀ t, valid t → t + 32768 < 2 ^ 64
  thread_bound : initThread < 2 ^ 64
  thread_apart : ∀ t, valid t → initThread + 64 ≤ t ∨ t + 32768 ≤ initThread
  tss_apart : ∀ t, valid t → tss + 12 ≤ t ∨ t + 32768 ≤ tss + 4
  tss_thread : tss + 12 ≤ initThread ∨ initThread + 64 ≤ tss + 4
  entries : label ≠ ret_system_call ∧ label ≠ kernel_thread_func

def threadOf (m : M) (tsk : Nat) : Nat := (load m (tsk + 48)).toNat

def switchTo (label : Word) (prev next : Nat) : List Instr :=
  [.push .rbp, .push .rax, .put .rsp (prev + 16), .get (next + 16) .rsp, .movImm label .rax,
    .put .rax (prev + 8), .pushMem (next + 8)]

def resume : List Instr := [.pop .rax, .pop .rbp]

def prevOf (m : Machine M) : Nat := (m.reg .rdi).toNat

def nextOf (m : Machine M) : Nat := (m.reg .rsi).toNat

/- The stores of __switch_to, in their order. -/
def switchStores (tss prev next : Nat) (fs gs : Word) (m : M) : M :=
  let m := store m (tss + 4) (load m (threadOf m next))
  let m := store m (threadOf m prev + 24) fs
  store m (threadOf m prev + 32) gs

/- __switch_to as its compiled code leaves the machine: it keeps the registers that belong to its
   caller, and uses the stack down to a bottom. -/
structure SwitchesTo (tss bottom : Nat) (m m' : Machine M) : Prop where
  rip : m'.rip = load m'.memory m.sp
  rsp : m'.reg .rsp = m.reg .rsp + 8
  reg : ∀ r ∈ [Reg.rbx, .rbp, .r12, .r13, .r14, .r15], m'.reg r = m.reg r
  seg : ∀ s ∈ [Seg.cs, .ss, .ds, .es], m'.seg s = m.seg s
  fs : m'.seg .fs = (load m'.memory (threadOf m'.memory (nextOf m) + 24)).setWidth 16
  gs : m'.seg .gs = (load m'.memory (threadOf m'.memory (nextOf m) + 32)).setWidth 16
  msr : m'.msr = Function.update m.msr 0x175 (load m'.memory (threadOf m'.memory (nextOf m)))
  memory : ∀ a, a + 8 ≤ bottom ∨ m.sp ≤ a →
    load m'.memory a = load (switchStores tss (prevOf m) (nextOf m) ((m.seg .fs).setWidth 64)
      ((m.seg .gs).setWidth 64) m.memory) a

def childregs (t : Nat) : Nat := t + 32768 - 192

theorem childregs_add (t : Nat) : childregs t + 192 = t + 32768 := by
  have enough : 192 ≤ t + 32768 := by omega
  exact Nat.sub_add_cancel enough

/- What a task that does not run has on its stack: it is in the middle of switch_to, or has a pt_regs
   from copy_thread and has not run yet. -/
inductive Parked (M : Type) where
  | left (m : Machine M)
  | fresh (p : PtRegs) (rip fs gs : Word)

namespace Parked

def rip (k : Space) : Parked M → Word
  | .left _ => k.label
  | .fresh _ rip _ _ => rip

def sp (t : Nat) : Parked M → Nat
  | .left m => m.sp - 16
  | .fresh _ _ _ _ => childregs t

def fs : Parked M → Word
  | .left m => (m.seg .fs).setWidth 64
  | .fresh _ _ fs _ => fs

def gs : Parked M → Word
  | .left m => (m.seg .gs).setWidth 64
  | .fresh _ _ _ gs => gs

def Fits (t : Nat) : Parked M → Prop
  | .left m => t + 320 ≤ m.sp ∧ m.sp < t + 32768
  | .fresh _ _ _ _ => True

def Stack (t : Nat) (m : M) : Parked M → Prop
  | .left m₀ => load m (m₀.sp - 16) = m₀.reg .rax ∧ load m (m₀.sp - 8) = m₀.reg .rbp ∧
      ∀ a, m₀.sp ≤ a → a + 8 ≤ t + 32768 → load m a = load m₀.memory a
  | .fresh p _ _ _ => Words m (childregs t) p.words

omit [WordMemory M] in
theorem fits_sp {t : Nat} {p : Parked M} (fits : p.Fits t) :
    t + 304 ≤ p.sp t ∧ p.sp t + 8 ≤ t + 32768 := by
  cases p with
  | left m =>
    obtain ⟨low, high⟩ := fits
    simp only [sp]
    omega
  | fresh p rip fs gs =>
    have place := childregs_add t
    simp only [sp]
    omega

theorem stack_congr {t : Nat} {m m' : M} {p : Parked M} (fits : p.Fits t)
    (same : ∀ a, p.sp t ≤ a → a + 8 ≤ t + 32768 → load m' a = load m a) (stack : p.Stack t m) :
    p.Stack t m' := by
  cases p with
  | left m₀ =>
    obtain ⟨low, high⟩ := fits
    obtain ⟨rax, rbp, rest⟩ := stack
    simp only [sp] at same
    refine ⟨?_, ?_, fun a above below => ?_⟩
    · exact (same _ (by omega) (by omega)).trans rax
    · exact (same _ (by omega) (by omega)).trans rbp
    · exact (same a (by omega) below).trans (rest a above below)
  | fresh p rip fs gs =>
    have length : p.words.length = 24 := rfl
    have place := childregs_add t
    exact words_congr (fun a low high => same a low (by omega)) stack

end Parked

namespace Space
variable (k : Space)

def thread (t : Nat) : Nat := if t = k.init then k.initThread else t + 232

/- The words that belong to a task. -/
def Owns (t a : Nat) : Prop :=
  (t ≤ a ∧ a + 8 ≤ t + 32768) ∨ (t = k.init ∧ k.initThread ≤ a ∧ a + 8 ≤ k.initThread + 64)

/- And those that it needs to run again: the pointer to its thread_struct, the first words of that,
   and the stack. -/
def Needs (n t sp a : Nat) : Prop :=
  a = t + 48 ∨ (∃ i < n, a = k.thread t + 8 * i) ∨ (sp ≤ a ∧ a + 8 ≤ t + 32768)

variable {k}

theorem thread_cases (t : Nat) :
    (t = k.init ∧ k.thread t = k.initThread) ∨ (t ≠ k.init ∧ k.thread t = t + 232) := by
  by_cases boot : t = k.init
  · simp [thread, boot]
  · simp [thread, boot]

theorem thread_lt {t : Nat} (valid : k.valid t) : k.thread t < 2 ^ 64 := by
  have bound := k.bound t valid
  have thread_bound := k.thread_bound
  rcases thread_cases (k := k) t with ⟨_, place⟩ | ⟨_, place⟩ <;> omega

theorem owns_needs {t sp a : Nat} (above : t ≤ sp) (needs : k.Needs 5 t sp a) : k.Owns t a := by
  rcases needs with rfl | ⟨i, few, rfl⟩ | ⟨low, high⟩
  · exact .inl (by omega)
  · rcases thread_cases (k := k) t with ⟨boot, place⟩ | ⟨_, place⟩
    · exact .inr (by omega)
    · exact .inl (by omega)
  · exact .inl (by omega)

theorem owns_thread {t i : Nat} (few : i < 5) : k.Owns t (k.thread t + 8 * i) :=
  owns_needs le_rfl (.inr (.inl ⟨i, few, rfl⟩))

theorem owns_apart {t u a b : Nat} (ht : k.valid t) (hu : k.valid u) (other : t ≠ u)
    (first : k.Owns t a) (second : k.Owns u b) : a + 8 ≤ b ∨ b + 8 ≤ a := by
  have ht_aligned := k.aligned t ht
  have hu_aligned := k.aligned u hu
  have ht_thread := k.thread_apart t ht
  have hu_thread := k.thread_apart u hu
  rcases first with first | ⟨rfl, first⟩ <;> rcases second with second | ⟨boot, second⟩ <;> omega

theorem owns_block {t u a : Nat} (ht : k.valid t) (hu : k.valid u) (other : t ≠ u)
    (owns : k.Owns u a) : a + 8 ≤ t ∨ t + 32768 ≤ a := by
  have ht_aligned := k.aligned t ht
  have hu_aligned := k.aligned u hu
  have ht_thread := k.thread_apart t ht
  rcases owns with owns | ⟨_, owns⟩ <;> omega

theorem stack_apart {t u a b : Nat} (ht : k.valid t) (hu : k.valid u) (low : t + 296 ≤ b)
    (high : b + 8 ≤ t + 32768) (needs : a = u + 48 ∨ ∃ i < 5, a = k.thread u + 8 * i) :
    b + 8 ≤ a ∨ a + 8 ≤ b := by
  by_cases same : t = u
  · subst same
    have block := k.thread_apart t ht
    have place := thread_cases (k := k) t
    rcases needs with rfl | ⟨i, few, rfl⟩ <;> omega
  · have owns : k.Owns u a :=
      owns_needs (Nat.le_add_right u 0) (needs.imp_right .inl)
    exact owns_apart ht hu same (.inl (by omega)) owns

theorem tss_apart_owns {t a : Nat} (valid : k.valid t) (owns : k.Owns t a) :
    a + 8 ≤ k.tss + 4 ∨ k.tss + 4 + 8 ≤ a := by
  have block := k.tss_apart t valid
  have thread := k.tss_thread
  rcases owns with owns | ⟨_, owns⟩ <;> omega

end Space

structure Places (k : Space) (m : M) (t : Nat) : Prop where
  pointer : load m (t + 48) = BitVec.ofNat 64 (k.thread t)
  rsp0 : load m (k.thread t) = BitVec.ofNat 64 (t + 32768)

structure Rests (k : Space) (m : M) (t : Nat) (p : Parked M) : Prop where
  places : Places k m t
  fits : p.Fits t
  rip : load m (k.thread t + 8) = p.rip k
  rsp : load m (k.thread t + 16) = BitVec.ofNat 64 (p.sp t)
  stack : p.Stack t m

structure Waits (k : Space) (m : M) (t : Nat) (p : Parked M) : Prop extends Rests k m t p where
  fs : load m (k.thread t + 24) = p.fs
  gs : load m (k.thread t + 32) = p.gs

section needs
variable {k : Space} {m m' : M} {t : Nat} {p : Parked M}

theorem Places.threadOf (places : Places k m t) (valid : k.valid t) :
    threadOf m t = k.thread t := by
  rw [TaskStacks.threadOf, places.pointer, BitVec.toNat_ofNat]
  exact Nat.mod_eq_of_lt (Space.thread_lt valid)

theorem rests_congr (same : ∀ a, k.Needs 3 t (p.sp t) a → load m' a = load m a)
    (rests : Rests k m t p) : Rests k m' t p := by
  have word (i : Nat) (few : i < 3) := same (k.thread t + 8 * i) (.inr (.inl ⟨i, few, rfl⟩))
  constructor
  · exact ⟨(same _ (.inl rfl)).trans rests.places.pointer,
      (word 0 (by omega)).trans rests.places.rsp0⟩
  · exact rests.fits
  · exact (word 1 (by omega)).trans rests.rip
  · exact (word 2 (by omega)).trans rests.rsp
  · exact Parked.stack_congr rests.fits (fun a low high => same a (.inr (.inr ⟨low, high⟩)))
      rests.stack

theorem waits_congr (same : ∀ a, k.Needs 5 t (p.sp t) a → load m' a = load m a)
    (waits : Waits k m t p) : Waits k m' t p := by
  have word (i : Nat) (few : i < 5) := same (k.thread t + 8 * i) (.inr (.inl ⟨i, few, rfl⟩))
  constructor
  · refine rests_congr (fun a needs => same a ?_) waits.toRests
    exact needs.imp_right (Or.imp_left fun ⟨i, few, place⟩ => ⟨i, by omega, place⟩)
  · exact (word 3 (by omega)).trans waits.fs
  · exact (word 4 (by omega)).trans waits.gs

end needs

def saveState (label : Word) (prev : Nat) (m : Machine M) : M :=
  let below := m.sp - 8
  let rests := m.sp - 16
  store (store (store (store m.memory below (m.reg .rbp)) rests (m.reg .rax)) (prev + 16)
    (BitVec.ofNat 64 rests)) (prev + 8) label

def switching (label : Word) (prev next : Nat) (m : Machine M) : Machine M :=
  let saved := saveState label prev m
  { (m.set .rsp (load saved (next + 16))).set .rax label with memory := saved }.push
    (load saved (next + 8))

theorem push_two {status : Instr → Machine M → Word} {m : Machine M} (room : 16 ≤ m.sp) :
    run status [.push .rbp, .push .rax] m = { m.set .rsp (BitVec.ofNat 64 (m.sp - 16)) with
      memory := store (store m.memory (m.sp - 8) (m.reg .rbp)) (m.sp - 16) (m.reg .rax) } := by
  have below : (m.reg .rsp - 8).toNat = m.sp - 8 := by
    simp only [Machine.sp] at room ⊢
    simp [BitVec.toNat_sub]
    omega
  have rests : m.reg .rsp - 8 - 8 = BitVec.ofNat 64 (m.sp - 16) := by
    apply BitVec.eq_of_toNat_eq
    simp only [Machine.sp] at room ⊢
    simp [BitVec.toNat_sub]
    omega
  have rests_nat : (BitVec.ofNat 64 (m.sp - 16)).toNat = m.sp - 16 := by
    have small : m.sp < 2 ^ 64 := (m.reg .rsp).isLt
    simp only [BitVec.toNat_ofNat]
    omega
  have rax : Function.update m.reg .rsp (m.reg .rsp - 8) .rax = m.reg .rax :=
    Function.update_of_ne (by decide) _ _
  simp only [run_cons, run_nil, exec, Machine.push, Machine.set, Function.update_self,
    Function.update_idem, below, rests, rests_nat, rax]

theorem run_switchTo {status : Instr → Machine M → Word} {label : Word} {prev next : Nat}
    {m : Machine M} (room : 16 ≤ m.sp) (apart : prev = next ∨ next + 24 ≤ prev ∨ prev + 24 ≤ next) :
    run status (switchTo label prev next) m = switching label prev next m := by
  have split : switchTo label prev next = [.push .rbp, .push .rax] ++ [.put .rsp (prev + 16),
    .get (next + 16) .rsp, .movImm label .rax, .put .rax (prev + 8), .pushMem (next + 8)] := rfl
  have same (mem : M) : load (store mem (prev + 8) label) (next + 16) = load mem (next + 16) :=
    load_store_apart mem label (by omega)
  rw [split, run_append, push_two room]
  simp [exec, Machine.push, Machine.set, switching, saveState, same]

section save
variable {k : Space} {m : Machine M} {c : Nat}

structure Leaves (k : Space) (c : Nat) (m : Machine M) : Prop where
  valid : k.valid c
  places : Places k m.memory c
  low : c + 320 ≤ m.sp
  high : m.sp < c + 32768

theorem saveState_kept (leaves : Leaves k c m) {a : Nat}
    (apart : ∀ b, k.Owns c b → b + 8 ≤ a ∨ a + 8 ≤ b) :
    load (saveState k.label (k.thread c) m) a = load m.memory a := by
  have low := leaves.low
  have high := leaves.high
  have owns (i : Nat) (few : i < 5) := apart _ (Space.owns_thread (k := k) (t := c) few)
  have below := apart (m.sp - 8) (.inl (by omega))
  have rests := apart (m.sp - 16) (.inl (by omega))
  have rip := owns 1 (by omega)
  have rsp := owns 2 (by omega)
  simp only [saveState]
  rw [load_store_apart _ _ (by omega), load_store_apart _ _ (by omega),
    load_store_apart _ _ (by omega), load_store_apart _ _ (by omega)]

theorem saveState_rests (leaves : Leaves k c m) :
    Rests k (saveState k.label (k.thread c) m) c (.left m) := by
  have low := leaves.low
  have high := leaves.high
  have block := k.thread_apart c leaves.valid
  have place := Space.thread_cases (k := k) c
  have kept {a : Nat} (apart : a + 8 ≤ m.sp - 16 ∨ m.sp ≤ a)
      (thread : a + 8 ≤ k.thread c + 8 ∨ k.thread c + 24 ≤ a) :
      load (saveState k.label (k.thread c) m) a = load m.memory a := by
    simp only [saveState]
    rw [load_store_apart _ _ (by omega), load_store_apart _ _ (by omega),
      load_store_apart _ _ (by omega), load_store_apart _ _ (by omega)]
  refine ⟨⟨?_, ?_⟩, ⟨low, high⟩, ?_, ?_, ?_, ?_, ?_⟩
  · exact (kept (by omega) (by omega)).trans leaves.places.pointer
  · exact (kept (by omega) (by omega)).trans leaves.places.rsp0
  · exact load_store _ _ _
  · simp only [saveState]
    rw [load_store_apart _ _ (by omega)]
    exact load_store _ _ _
  · simp only [saveState]
    rw [load_store_apart _ _ (by omega), load_store_apart _ _ (by omega)]
    exact load_store _ _ _
  · simp only [saveState]
    rw [load_store_apart _ _ (by omega), load_store_apart _ _ (by omega),
      load_store_apart _ _ (by omega)]
    exact load_store _ _ _
  · exact fun a above below => kept (by omega) (by omega)

theorem switching_sp {t : Nat} {p : Parked M} (valid : k.valid t)
    (rests : Rests k (saveState k.label (k.thread c) m) t p) :
    (switching k.label (k.thread c) (k.thread t) m).reg .rsp + 8 = BitVec.ofNat 64 (p.sp t) ∧
      (switching k.label (k.thread c) (k.thread t) m).sp = p.sp t - 8 ∧
      (switching k.label (k.thread c) (k.thread t) m).memory =
        store (saveState k.label (k.thread c) m) (p.sp t - 8) (p.rip k) := by
  have bound := k.bound t valid
  have ⟨low, high⟩ := Parked.fits_sp rests.fits
  have small : p.sp t < 2 ^ 64 := by omega
  have pushed : (BitVec.ofNat 64 (p.sp t) - 8).toNat = p.sp t - 8 := by
    simp [BitVec.toNat_sub]
    omega
  have stack : (switching k.label (k.thread c) (k.thread t) m).reg .rsp =
      BitVec.ofNat 64 (p.sp t) - 8 := by
    simp [switching, Machine.push, rests.rsp]
  refine ⟨?_, ?_, ?_⟩
  · rw [stack, BitVec.sub_add_cancel]
  · rw [Machine.sp, stack, pushed]
  · rw [switching, Machine.push_memory]
    congr 1
    · rw [← pushed, ← stack]
      rfl
    · exact rests.rip

theorem switching_reg (prev next : Nat) (label : Word) {r : Reg} (not_rsp : r ≠ .rsp)
    (not_rax : r ≠ .rax) : (switching label prev next m).reg r = m.reg r := by
  simp [switching, Machine.push, not_rsp, not_rax]

/- The memory that __switch_to leaves, where the frame of its code is not. -/
theorem switchStores_eq {t : Nat} {fs gs : Word} {w : M} (leaves : Leaves k c m) (valid : k.valid t)
    (prev : Places k w c) (next : Places k w t) :
    switchStores k.tss c t fs gs w = store (store (store w (k.tss + 4)
      (BitVec.ofNat 64 (t + 32768))) (k.thread c + 24) fs) (k.thread c + 32) gs := by
  have block := k.thread_apart c leaves.valid
  have place := Space.thread_cases (k := k) c
  have tss := Space.tss_apart_owns leaves.valid (a := c + 48) (.inl (by omega))
  have first (v : Word) : threadOf (store w (k.tss + 4) v) c = k.thread c := by
    rw [threadOf, load_store_apart _ _ (by omega)]
    exact prev.threadOf leaves.valid
  have second (v : Word) :
      threadOf (store (store w (k.tss + 4) v) (k.thread c + 24) fs) c = k.thread c := by
    rw [threadOf, load_store_apart _ _ (by omega)]
    exact first v
  simp only [switchStores, first, second, next.threadOf valid, next.rsp0]

structure Goes (k : Space) (c t : Nat) (p : Parked M) (m : Machine M) : Prop where
  leaves : Leaves k c m
  valid : k.valid t
  prev : prevOf m = c
  next : nextOf m = t
  waits : (t = c ∧ p = .left m) ∨ (t ≠ c ∧ Waits k m.memory t p)

structure Switched (k : Space) (c t : Nat) (p : Parked M) (m m₁ : Machine M) : Prop where
  rip : m₁.rip = p.rip k
  rsp : m₁.reg .rsp = BitVec.ofNat 64 (p.sp t)
  reg : ∀ r ∈ [Reg.rbx, .rbp, .r12, .r13, .r14, .r15], m₁.reg r = m.reg r
  seg : ∀ s ∈ [Seg.cs, .ss, .ds, .es], m₁.seg s = m.seg s
  fs : m₁.seg .fs = p.fs.setWidth 16
  gs : m₁.seg .gs = p.gs.setWidth 16
  msr : m₁.msr = Function.update m.msr 0x175 (BitVec.ofNat 64 (t + 32768))
  tss : load m₁.memory (k.tss + 4) = BitVec.ofNat 64 (t + 32768)
  places : Places k m₁.memory t
  stack : p.Stack t m₁.memory
  left : c ≠ t → Waits k m₁.memory c (.left m)
  others : ∀ u, k.valid u → u ≠ c → u ≠ t → ∀ a, k.Owns u a → load m₁.memory a = load m.memory a

theorem goes_rests {t : Nat} {p : Parked M} (goes : Goes k c t p m) :
    Rests k (saveState k.label (k.thread c) m) t p := by
  rcases goes.waits with ⟨rfl, rfl⟩ | ⟨other, waits⟩
  · exact saveState_rests goes.leaves
  · have above : t ≤ p.sp t := by
      have fits := Parked.fits_sp waits.fits
      omega
    refine (waits_congr (fun a needs => ?_) waits).toRests
    apply saveState_kept goes.leaves
    intro b owns
    exact Space.owns_apart goes.leaves.valid goes.valid other.symm owns
      (Space.owns_needs above needs)

section switched
variable {t : Nat} {p : Parked M} {m₁ : Machine M}

theorem places_store {u b : Nat} {w : M} {v : Word} (ht : k.valid t) (hu : k.valid u)
    (low : t + 296 ≤ b) (high : b + 8 ≤ t + 32768) (places : Places k w u) :
    Places k (store w b v) u where
  pointer :=
    (load_store_apart w v (Space.stack_apart ht hu low high (.inl rfl))).trans places.pointer
  rsp0 := (load_store_apart w v (Space.stack_apart ht hu low high
    (.inr ⟨0, by omega, rfl⟩))).trans places.rsp0

def switchedMemory (k : Space) (c t : Nat) (p : Parked M) (m : Machine M) : M :=
  store (store (store (store (saveState k.label (k.thread c) m) (p.sp t - 8) (p.rip k))
    (k.tss + 4) (BitVec.ofNat 64 (t + 32768))) (k.thread c + 24) ((m.seg .fs).setWidth 64))
    (k.thread c + 32) ((m.seg .gs).setWidth 64)

theorem switchedMemory_of (goes : Goes k c t p m)
    (ran : SwitchesTo k.tss (t + 296) (switching k.label (k.thread c) (k.thread t) m) m₁) {a : Nat}
    (outside : a + 8 ≤ t + 296 ∨ p.sp t - 8 ≤ a) :
    load m₁.memory a = load (switchedMemory k c t p m) a := by
  have rests := goes_rests goes
  have ⟨low, high⟩ := Parked.fits_sp rests.fits
  obtain ⟨-, sp, memory⟩ := switching_sp goes.valid rests
  have prev : prevOf (switching k.label (k.thread c) (k.thread t) m) = c :=
    (congrArg BitVec.toNat (switching_reg _ _ _ (by decide) (by decide))).trans goes.prev
  have next : nextOf (switching k.label (k.thread c) (k.thread t) m) = t :=
    (congrArg BitVec.toNat (switching_reg _ _ _ (by decide) (by decide))).trans goes.next
  have seg : (switching k.label (k.thread c) (k.thread t) m).seg = m.seg := rfl
  have prev_places := places_store (v := p.rip k) goes.valid goes.leaves.valid
    (b := p.sp t - 8) (by omega) (by omega) (saveState_rests goes.leaves).places
  have next_places := places_store (v := p.rip k) goes.valid goes.valid
    (b := p.sp t - 8) (by omega) (by omega) rests.places
  rw [ran.memory a (by rw [sp]; exact outside), prev, next, memory, seg, switchedMemory,
    switchStores_eq goes.leaves goes.valid prev_places next_places]

theorem switchedMemory_kept (room : 8 ≤ p.sp t) {a : Nat}
    (stack : a + 8 ≤ p.sp t - 8 ∨ p.sp t ≤ a) (tss : a + 8 ≤ k.tss + 4 ∨ k.tss + 4 + 8 ≤ a)
    (segs : a + 8 ≤ k.thread c + 24 ∨ k.thread c + 40 ≤ a) :
    load (switchedMemory k c t p m) a = load (saveState k.label (k.thread c) m) a := by
  simp only [switchedMemory]
  rw [load_store_apart _ _ (by omega), load_store_apart _ _ (by omega),
    load_store_apart _ _ (by omega), load_store_apart _ _ (by omega)]

theorem switched_needs (goes : Goes k c t p m)
    (ran : SwitchesTo k.tss (t + 296) (switching k.label (k.thread c) (k.thread t) m) m₁) {a n : Nat}
    (few : n ≤ 5) (other : t = c → n ≤ 3) (needs : k.Needs n t (p.sp t) a) :
    load m₁.memory a = load (saveState k.label (k.thread c) m) a := by
  have ⟨low, high⟩ := Parked.fits_sp (goes_rests goes).fits
  have block := k.thread_apart t goes.valid
  have place := Space.thread_cases (k := k) t
  have owns : k.Owns t a := by
    apply Space.owns_needs (by omega : t ≤ p.sp t)
    exact needs.imp_right (Or.imp_left fun ⟨i, small, here⟩ => ⟨i, by omega, here⟩)
  have tss := Space.tss_apart_owns goes.valid owns
  have segs : a + 8 ≤ k.thread c + 24 ∨ k.thread c + 40 ≤ a := by
    by_cases same : t = c
    · subst same
      have three := other rfl
      rcases needs with rfl | ⟨i, small, rfl⟩ | stack <;> omega
    · have fs := Space.owns_apart goes.valid goes.leaves.valid same owns
        (Space.owns_thread (k := k) (i := 3) (by omega))
      have gs := Space.owns_apart goes.valid goes.leaves.valid same owns
        (Space.owns_thread (k := k) (i := 4) (by omega))
      omega
  have outside : a + 8 ≤ t + 296 ∨ p.sp t ≤ a := by
    rcases needs with rfl | ⟨i, small, rfl⟩ | stack <;> omega
  rw [switchedMemory_of goes ran (by omega)]
  exact switchedMemory_kept (by omega) (by omega) tss segs

theorem switched_left (goes : Goes k c t p m)
    (ran : SwitchesTo k.tss (t + 296) (switching k.label (k.thread c) (k.thread t) m) m₁)
    (other : c ≠ t) : Waits k m₁.memory c (.left m) := by
  have ⟨low, high⟩ := Parked.fits_sp (goes_rests goes).fits
  have rests := saveState_rests goes.leaves
  have outside {a : Nat} (owns : k.Owns c a) := Space.owns_block goes.valid goes.leaves.valid
    other.symm owns
  have above : c ≤ (Parked.left m).sp c := by
    have fits := Parked.fits_sp rests.fits
    omega
  have segs {i : Nat} (few : i < 5) := Space.owns_thread (k := k) (t := c) few
  constructor
  · refine rests_congr (fun a needs => ?_) rests
    have owns : k.Owns c a := by
      apply Space.owns_needs above
      exact needs.imp_right (Or.imp_left fun ⟨i, small, here⟩ => ⟨i, by omega, here⟩)
    have beyond := outside owns
    have tss := Space.tss_apart_owns goes.leaves.valid owns
    have ⟨own_low, own_high⟩ := Parked.fits_sp rests.fits
    have block := k.thread_apart c goes.leaves.valid
    have place := Space.thread_cases (k := k) c
    rw [switchedMemory_of goes ran (by omega)]
    apply switchedMemory_kept (by omega) (by omega) tss
    rcases needs with rfl | ⟨i, small, rfl⟩ | stack <;> omega
  · have beyond := outside (segs (i := 3) (by omega))
    rw [switchedMemory_of goes ran (by omega), switchedMemory, load_store_apart _ _ (by omega)]
    exact load_store _ _ _
  · have beyond := outside (segs (i := 4) (by omega))
    rw [switchedMemory_of goes ran (by omega)]
    exact load_store _ _ _

theorem switched_others (goes : Goes k c t p m)
    (ran : SwitchesTo k.tss (t + 296) (switching k.label (k.thread c) (k.thread t) m) m₁) {u a : Nat}
    (valid : k.valid u) (not_left : u ≠ c) (not_next : u ≠ t) (owns : k.Owns u a) :
    load m₁.memory a = load m.memory a := by
  have ⟨low, high⟩ := Parked.fits_sp (goes_rests goes).fits
  have beyond := Space.owns_block goes.valid valid not_next.symm owns
  have tss := Space.tss_apart_owns valid owns
  have apart {b : Nat} (own : k.Owns c b) :=
    Space.owns_apart goes.leaves.valid valid not_left.symm own owns
  have fs := apart (Space.owns_thread (i := 3) (by omega))
  have gs := apart (Space.owns_thread (i := 4) (by omega))
  rw [switchedMemory_of goes ran (by omega),
    switchedMemory_kept (by omega) (by omega) tss (by omega)]
  exact saveState_kept goes.leaves fun b own => apart own

theorem switched_segs (goes : Goes k c t p m)
    (ran : SwitchesTo k.tss (t + 296) (switching k.label (k.thread c) (k.thread t) m) m₁) :
    load m₁.memory (k.thread t + 24) = p.fs ∧ load m₁.memory (k.thread t + 32) = p.gs := by
  have ⟨low, high⟩ := Parked.fits_sp (goes_rests goes).fits
  have block := k.thread_apart t goes.valid
  have place := Space.thread_cases (k := k) t
  rcases goes.waits with ⟨rfl, rfl⟩ | ⟨other, waits⟩
  · rw [switchedMemory_of goes ran (by omega), switchedMemory_of goes ran (by omega),
      switchedMemory, load_store_apart _ _ (by omega)]
    exact ⟨load_store _ _ _, load_store _ _ _⟩
  · have above : t ≤ p.sp t := by omega
    have kept {i : Nat} (few : i < 5) : load m₁.memory (k.thread t + 8 * i) =
        load m.memory (k.thread t + 8 * i) := by
      rw [switched_needs goes ran le_rfl (fun same => absurd same other)
        (.inr (.inl ⟨i, few, rfl⟩))]
      apply saveState_kept goes.leaves
      exact fun b own => Space.owns_apart goes.leaves.valid goes.valid other.symm own
        (Space.owns_thread few)
    exact ⟨(kept (i := 3) (by omega)).trans waits.fs, (kept (i := 4) (by omega)).trans waits.gs⟩

theorem switched_tss (goes : Goes k c t p m)
    (ran : SwitchesTo k.tss (t + 296) (switching k.label (k.thread c) (k.thread t) m) m₁) :
    load m₁.memory (k.tss + 4) = BitVec.ofNat 64 (t + 32768) := by
  have block := k.tss_apart t goes.valid
  have ⟨low, high⟩ := Parked.fits_sp (goes_rests goes).fits
  have fs := Space.tss_apart_owns goes.leaves.valid (Space.owns_thread (i := 3) (by omega))
  have gs := Space.tss_apart_owns goes.leaves.valid (Space.owns_thread (i := 4) (by omega))
  rw [switchedMemory_of goes ran (by omega), switchedMemory, load_store_apart _ _ (by omega),
    load_store_apart _ _ (by omega)]
  exact load_store _ _ _

theorem switched_of (goes : Goes k c t p m)
    (ran : SwitchesTo k.tss (t + 296) (switching k.label (k.thread c) (k.thread t) m) m₁) :
    Switched k c t p m m₁ := by
  have rests := goes_rests goes
  have ⟨low, high⟩ := Parked.fits_sp rests.fits
  obtain ⟨rsp, sp, memory⟩ := switching_sp goes.valid rests
  have next : nextOf (switching k.label (k.thread c) (k.thread t) m) = t :=
    (congrArg BitVec.toNat (switching_reg _ _ _ (by decide) (by decide))).trans goes.next
  have after : Rests k m₁.memory t p :=
    rests_congr (fun a needs => switched_needs goes ran (by omega) (fun _ => le_rfl) needs) rests
  have thread : threadOf m₁.memory t = k.thread t := after.places.threadOf goes.valid
  obtain ⟨fs, gs⟩ := switched_segs goes ran
  have msr : (switching k.label (k.thread c) (k.thread t) m).msr = m.msr := rfl
  have seg : (switching k.label (k.thread c) (k.thread t) m).seg = m.seg := rfl
  constructor
  · rw [ran.rip, sp, switchedMemory_of goes ran (by omega)]
    have block := k.thread_apart t goes.valid
    have place := Space.thread_cases (k := k) c
    have tss := Space.tss_apart_owns goes.valid (a := p.sp t - 8) (.inl (by omega))
    have segs (i : Nat) (few : i < 5) := Space.stack_apart goes.valid goes.leaves.valid
      (b := p.sp t - 8) (by omega) (by omega) (.inr ⟨i, few, rfl⟩)
    have fs_apart := segs 3 (by omega)
    have gs_apart := segs 4 (by omega)
    rw [switchedMemory, load_store_apart _ _ (by omega), load_store_apart _ _ (by omega),
      load_store_apart _ _ (by omega)]
    exact load_store _ _ _
  · exact ran.rsp.trans rsp
  · intro r member
    have general : r ≠ .rsp ∧ r ≠ .rax := by
      constructor <;> (rintro rfl; simp at member)
    exact (ran.reg r member).trans (switching_reg _ _ _ general.1 general.2)
  · intro s member
    rw [ran.seg s member, seg]
  · rw [ran.fs, next, thread, fs]
  · rw [ran.gs, next, thread, gs]
  · rw [ran.msr, next, thread, after.places.rsp0, msr]
  · exact switched_tss goes ran
  · exact after.places
  · exact after.stack
  · exact switched_left goes ran
  · exact fun u valid not_left not_next a owns =>
      switched_others goes ran valid not_left not_next owns

end switched

end save

end TaskStacks

import Q2os.TaskStacks

/- copy_thread: the stack of a new task, with a pt_regs that it begins from. -/
namespace ChildStack
open StackMachine EntryFrames TaskStacks
variable {M : Type} [WordMemory M]

/- memset and memcpy of whole words, upwards. -/
def clearWords (a : Nat) : Nat → M → M
  | 0, m => m
  | n + 1, m => clearWords (a + 8) n (store m a 0)

def copyWords (src dst : Nat) : Nat → M → M
  | 0, m => m
  | n + 1, m => copyWords (src + 8) (dst + 8) n (store m dst (load m src))

/- copy_thread, for a task that is not the boot task: the stack and the registers of the child, and
   then what it has from its parent. -/
def copyFrame (tsk regs : Nat) (stack_start : Word) (m : M) : M :=
  let thd := tsk + 232
  let m := clearWords thd 8 m
  let m := store m (tsk + 48) (BitVec.ofNat 64 thd)
  let m := copyWords regs (childregs tsk) 24 m
  let m := store m (childregs tsk + 0x80) 0
  let m := store m (childregs tsk + 0xb0) stack_start
  let m := store m thd (BitVec.ofNat 64 (tsk + 32768))
  store m (thd + 16) (BitVec.ofNat 64 (childregs tsk))

def copyThread (k : Space) (current tsk regs : Nat) (stack_start : Word) (m : M) : M :=
  let thd := tsk + 232
  let m := copyFrame tsk regs stack_start m
  let m := store m (thd + 24) (load m (threadOf m current + 24))
  let m := store m (thd + 32) (load m (threadOf m current + 32))
  store m (thd + 8)
    (if load m (tsk + 8) &&& 1 ≠ 0 then k.kernel_thread_func else k.ret_system_call)

section copies
variable {m : M}

theorem clearWords_apart {a b n : Nat} (apart : b + 8 ≤ a ∨ a + 8 * n ≤ b) :
    load (clearWords a n m) b = load m b := by
  induction n generalizing a m with
  | zero => rfl
  | succ n ih =>
    rw [clearWords, ih (by omega)]
    exact load_store_apart m 0 (by omega)

theorem copyWords_apart {src dst b n : Nat} (apart : b + 8 ≤ dst ∨ dst + 8 * n ≤ b) :
    load (copyWords src dst n m) b = load m b := by
  induction n generalizing src dst m with
  | zero => rfl
  | succ n ih =>
    rw [copyWords, ih (by omega)]
    exact load_store_apart m _ (by omega)

theorem copyWords_words {src dst : Nat} {ws : List Word} (words : Words m src ws)
    (apart : src + 8 * ws.length ≤ dst ∨ dst + 8 * ws.length ≤ src) :
    Words (copyWords src dst ws.length m) dst ws := by
  induction ws generalizing src dst m with
  | nil => trivial
  | cons w ws ih =>
    obtain ⟨first, rest⟩ := words
    simp only [List.length_cons] at apart
    refine ⟨?_, ih (words_store _ (by omega) rest) (by omega)⟩
    rw [List.length_cons, copyWords, copyWords_apart (by omega), first]
    exact load_store m dst w

end copies

/- The pt_regs and the thread_struct of a new task. -/
def childFrame (p : PtRegs) (stack_start : Word) : PtRegs := { p with rax := 0, rsp := stack_start }

def childEntry (k : Space) (tsk : Nat) (m : M) : Word :=
  if load m (tsk + 8) &&& 1 ≠ 0 then k.kernel_thread_func else k.ret_system_call

def newTask (k : Space) (current tsk : Nat) (p : PtRegs) (stack_start : Word) (m : M) : Parked M :=
  .fresh (childFrame p stack_start) (childEntry k tsk m) (load m (threadOf m current + 24))
    (load m (threadOf m current + 32))

theorem childFrame_words {m : M} {p : PtRegs} {a : Nat} {stack_start : Word}
    (words : Words m a p.words) : Words (store (store m (a + 0x80) 0) (a + 0xb0) stack_start) a
      (childFrame p stack_start).words := by
  have length : p.words.length = 24 := rfl
  have both : (p.words.set 16 0).set 22 stack_start = (childFrame p stack_start).words := rfl
  rw [← both]
  exact words_set (i := 22) stack_start (by simp [length])
    (words_set (i := 16) 0 (by simp [length]) words)

section fork
variable {k : Space} {c t regs : Nat} {p : PtRegs} {stack_start : Word} {m : M}

theorem copyFrame_apart {a : Nat}
    (apart : a + 8 ≤ t ∨ t + 32768 ≤ a ∨ (t ≤ a ∧ a + 8 ≤ t + 48)) :
    load (copyFrame t regs stack_start m) a = load m a := by
  have top := childregs_add t
  simp only [copyFrame]
  rw [load_store_apart _ _ (by omega), load_store_apart _ _ (by omega),
    load_store_apart _ _ (by omega), load_store_apart _ _ (by omega), copyWords_apart (by omega),
    load_store_apart _ _ (by omega), clearWords_apart (by omega)]

theorem copyThread_apart {a : Nat} (apart : a + 8 ≤ t ∨ t + 32768 ≤ a) :
    load (copyThread k c t regs stack_start m) a = load m a := by
  simp only [copyThread]
  rw [load_store_apart _ _ (by omega), load_store_apart _ _ (by omega),
    load_store_apart _ _ (by omega), copyFrame_apart (by omega)]

theorem copyThread_eq (valid : k.valid t) (current : k.valid c) (other : c ≠ t)
    (places : Places k m c) :
    copyThread k c t regs stack_start m = store (store (store (copyFrame t regs stack_start m)
      (t + 232 + 24) (load m (threadOf m c + 24))) (t + 232 + 32) (load m (threadOf m c + 32)))
      (t + 232 + 8) (childEntry k t m) := by
  have own : c + 48 + 8 ≤ t ∨ t + 32768 ≤ c + 48 :=
    Space.owns_block valid current other.symm (.inl (by omega))
  have fs := Space.owns_block valid current other.symm (Space.owns_thread (i := 3) (by omega))
  have gs := Space.owns_block valid current other.symm (Space.owns_thread (i := 4) (by omega))
  have thread := places.threadOf current
  have first : threadOf (copyFrame t regs stack_start m) c = k.thread c := by
    rw [threadOf, copyFrame_apart (by omega)]
    exact thread
  have second (w : Word) :
      threadOf (store (copyFrame t regs stack_start m) (t + 232 + 24) w) c = k.thread c := by
    rw [threadOf, load_store_apart _ _ (by omega), copyFrame_apart (by omega)]
    exact thread
  have flags (v w : Word) : load (store (store (copyFrame t regs stack_start m) (t + 232 + 24) v)
      (t + 232 + 32) w) (t + 8) = load m (t + 8) := by
    rw [load_store_apart _ _ (by omega), load_store_apart _ _ (by omega),
      copyFrame_apart (by omega)]
  simp only [copyThread, childEntry]
  rw [flags, second, first, copyFrame_apart (by omega), load_store_apart _ _ (by omega),
    copyFrame_apart (by omega), thread]

/- The new task is one that can run. -/
theorem copyThread_waits (valid : k.valid t) (not_boot : t ≠ k.init) (current : k.valid c)
    (other : c ≠ t) (places : Places k m c) (frame : Words m regs p.words)
    (apart : regs + 192 ≤ t ∨ t + 32768 ≤ regs) :
    Waits k (copyThread k c t regs stack_start m) t (newTask k c t p stack_start m) := by
  have top := childregs_add t
  have length : p.words.length = 24 := rfl
  have place : k.thread t = t + 232 := by
    rcases Space.thread_cases (k := k) t with ⟨boot, _⟩ | ⟨_, place⟩
    · exact absurd boot not_boot
    · exact place
  have copied : Words (store (store (copyWords regs (childregs t) 24
      (store (clearWords (t + 232) 8 m) (t + 48) (BitVec.ofNat 64 (t + 232))))
      (childregs t + 0x80) 0) (childregs t + 0xb0) stack_start) (childregs t)
      (childFrame p stack_start).words := by
    apply childFrame_words
    refine copyWords_words (words_store _ (by omega) ?_ : Words _ _ p.words) (by omega)
    exact words_congr (fun a low high => clearWords_apart (by omega)) frame
  have child_length : (childFrame p stack_start).words.length = 24 := rfl
  rw [copyThread_eq valid current other places]
  constructor
  · constructor
    · constructor
      · rw [load_store_apart _ _ (by omega), load_store_apart _ _ (by omega),
          load_store_apart _ _ (by omega), copyFrame, load_store_apart _ _ (by omega),
          load_store_apart _ _ (by omega), load_store_apart _ _ (by omega),
          load_store_apart _ _ (by omega), copyWords_apart (by omega), load_store, place]
      · rw [place, load_store_apart _ _ (by omega), load_store_apart _ _ (by omega),
          load_store_apart _ _ (by omega), copyFrame, load_store_apart _ _ (by omega), load_store]
    · trivial
    · rw [place, load_store]
      rfl
    · rw [place, load_store_apart _ _ (by omega), load_store_apart _ _ (by omega),
        load_store_apart _ _ (by omega), copyFrame, load_store]
      rfl
    · refine words_store _ (by omega) (words_store _ (by omega) (words_store _ (by omega) ?_))
      exact words_store _ (by omega) (words_store _ (by omega) copied)
  · rw [place, load_store_apart _ _ (by omega), load_store_apart _ _ (by omega), load_store]
    rfl
  · rw [place, load_store_apart _ _ (by omega), load_store]
    rfl

end fork

end ChildStack

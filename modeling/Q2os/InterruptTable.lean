import Q2os.GateDescriptors

/- IDT_Table: setup_IDT fills it with gates to ignore_int, and the kernel sets its own gates
   over them while it starts. -/
namespace InterruptTable
open ByteMemory BitFields GateDescriptors

section setters
variable (m : Memory) (idtTable : Nat) (n : BitVec 32) (ist : BitVec 8) (upper : BitVec 56)
  (addr : BitVec 64)

def setIntrGate : Memory := setGate m (idtTable + 16 * n.toNat) 0x8E ist upper addr

def setTrapGate : Memory := setGate m (idtTable + 16 * n.toNat) 0x8F ist upper addr

def setSystemGate : Memory := setGate m (idtTable + 16 * n.toNat) 0xEF ist upper addr

def setSystemIntrGate : Memory := setGate m (idtTable + 16 * n.toNat) 0xEE ist upper addr

end setters

inductive Setter where
  | intr
  | trap
  | system
  | systemIntr
deriving DecidableEq

def Setter.attr : Setter → BitVec 8
  | .intr => 0x8E
  | .trap => 0x8F
  | .system => 0xEF
  | .systemIntr => 0xEE

structure Call where
  setter : Setter
  n : BitVec 32
  ist : BitVec 8
  upper : BitVec 56
  addr : BitVec 64

def Call.run (idtTable : Nat) (m : Memory) (c : Call) : Memory :=
  match c.setter with
  | .intr => setIntrGate m idtTable c.n c.ist c.upper c.addr
  | .trap => setTrapGate m idtTable c.n c.ist c.upper c.addr
  | .system => setSystemGate m idtTable c.n c.ist c.upper c.addr
  | .systemIntr => setSystemIntrGate m idtTable c.n c.ist c.upper c.addr

/- The table as the processor reads it, and what a call means for it. -/
def gates (m : Memory) (idtTable : Nat) : Nat → Gate := fun k => Gate.read m (idtTable + 16 * k)

def Call.gate (c : Call) : Gate := kernelGate c.addr c.setter.attr c.ist

def Call.update (table : Nat → Gate) (c : Call) : Nat → Gate :=
  Function.update table c.n.toNat c.gate

/- rp_sidt, the loop of setup_IDT, by what is left in rcx. -/
def rpSidt (rax rdx : BitVec 64) : Nat → Memory → Nat → Memory
  | 0, m, _ => m
  | rcx + 1, m, rdi => rpSidt rax rdx rcx (store (store m rdi rax) (rdi + 8) rdx) (rdi + 0x10)

def setupIDT (m : Memory) (idtTable : Nat) (ignoreInt rax rcx : BitVec 64) : Memory :=
  let rdx := ignoreInt
  let rax := movq (0x08#64 <<< 16) rax
  let rax := movw rdx rax
  let rcx := movq (0x8E00#64 <<< 32) rcx
  let rax := rax + rcx
  let rcx := movl rdx rcx
  let rcx := shrl 16 rcx
  let rcx := rcx <<< 48
  let rax := rax + rcx
  let rdx := rdx >>> 32
  let rdi := idtTable
  rpSidt rax rdx 256 m rdi

/- The calls of sys_vector_init, by the entry points of the exceptions. -/
def sysVectorInit (entry : BitVec 32 → BitVec 64) (upper : BitVec 32 → BitVec 56) : List Call :=
  let set (setter : Setter) (n : BitVec 32) : Call := ⟨setter, n, 0, upper n, entry n⟩
  [set .trap 0, set .trap 1, set .intr 2, set .system 3, set .system 4, set .system 5,
    set .trap 6, set .trap 7, set .trap 8, set .trap 9, set .trap 10, set .trap 11, set .trap 12,
    set .trap 13, set .trap 14, set .trap 16, set .trap 17, set .trap 18, set .trap 19,
    set .trap 20]

/- The loops of APIC_IOAPIC_init and of SMP_init over interrupt and SMP_interrupt. -/
def interruptInit (first count : Nat) (handlers : Nat → BitVec 64) (upper : BitVec 32 → BitVec 56) :
    List Call :=
  (List.range count).map fun i =>
    let n := BitVec.ofNat 32 (first + i)
    ⟨.intr, n, 0, upper n, handlers i⟩

def apicIOAPICInit (interrupt : Nat → BitVec 64) : (BitVec 32 → BitVec 56) → List Call :=
  interruptInit 32 24 interrupt

def smpInit (smpInterrupt : Nat → BitVec 64) : (BitVec 32 → BitVec 56) → List Call :=
  interruptInit 200 10 smpInterrupt

section calls
variable {m : Memory} {idtTable : Nat}

theorem Call.run_setGate (c : Call) : c.run idtTable m =
    setGate m (idtTable + 16 * c.n.toNat) c.setter.attr c.ist c.upper c.addr := by
  obtain ⟨setter, n, ist, upper, addr⟩ := c
  cases setter <;> rfl

theorem gates_call (c : Call) :
    gates (c.run idtTable m) idtTable = c.update (gates m idtTable) := by
  funext k
  by_cases same : k = c.n.toNat
  · rw [same, Call.update, Function.update_self, gates, Call.run_setGate, read_setGate, Call.gate]
  · rw [Call.update, Function.update_of_ne same, gates, gates]
    apply Gate.read_congr
    intro i inside
    rw [Call.run_setGate]
    exact setGate_outside (by omega)

theorem gates_calls (calls : List Call) (m : Memory) :
    gates (calls.foldl (Call.run idtTable) m) idtTable =
      calls.foldl Call.update (gates m idtTable) := by
  induction calls generalizing m with
  | nil => rfl
  | cons c calls ih => rw [List.foldl_cons, List.foldl_cons, ih, gates_call]

theorem update_absent {calls : List Call} {table : Nat → Gate} {k : Nat}
    (absent : ∀ c ∈ calls, c.n.toNat ≠ k) : calls.foldl Call.update table k = table k := by
  induction calls generalizing table with
  | nil => rfl
  | cons c calls ih =>
    rw [List.foldl_cons, ih fun d member => absent d (List.mem_cons_of_mem c member)]
    exact Function.update_of_ne (absent c List.mem_cons_self).symm _ _

theorem update_calls (calls : List Call) (table : Nat → Gate) (k : Nat) :
    (∃ c ∈ calls, c.n.toNat = k ∧ calls.foldl Call.update table k = c.gate) ∨
      (∀ c ∈ calls, c.n.toNat ≠ k) ∧ calls.foldl Call.update table k = table k := by
  induction calls generalizing table with
  | nil => exact .inr ⟨fun _ member => absurd member List.not_mem_nil, rfl⟩
  | cons c calls ih =>
    rw [List.foldl_cons]
    rcases ih (c.update table) with ⟨d, member, vector, is_gate⟩ | ⟨absent, kept⟩
    · exact .inl ⟨d, List.mem_cons_of_mem c member, vector, is_gate⟩
    · rw [kept]
      by_cases here : c.n.toNat = k
      · left
        refine ⟨c, List.mem_cons_self, here, ?_⟩
        rw [← here]
        exact Function.update_self _ _ _
      · right
        refine ⟨?_, Function.update_of_ne (Ne.symm here) _ _⟩
        intro d member
        rcases List.mem_cons.mp member with rfl | later
        · exact here
        · exact absent d later

theorem update_present {calls : List Call} {table : Nat → Gate}
    (different : calls.Pairwise fun c d => c.n ≠ d.n) {c : Call} (member : c ∈ calls) :
    calls.foldl Call.update table c.n.toNat = c.gate := by
  induction calls generalizing table with
  | nil => exact absurd member List.not_mem_nil
  | cons d calls ih =>
    have ⟨first, rest⟩ := List.pairwise_cons.mp different
    rw [List.foldl_cons]
    rcases List.mem_cons.mp member with rfl | later
    · have absent : ∀ d ∈ calls, d.n.toNat ≠ c.n.toNat := by
        intro d there same
        exact first d there (BitVec.eq_of_toNat_eq same.symm)
      rw [update_absent absent]
      exact Function.update_self _ _ _
    · exact ih rest later

end calls

section fill
variable {m : Memory} {idtTable : Nat} {rax rdx : BitVec 64} {rcx rdi x : Nat}

theorem rpSidt_outside (outside : x < rdi ∨ rdi + 16 * rcx ≤ x) :
    rpSidt rax rdx rcx m rdi x = m x := by
  induction rcx generalizing m rdi with
  | zero => rfl
  | succ rcx ih =>
    have turn : storeWords m rdi rax rdx x = m x := storeWords_outside (by omega)
    rw [rpSidt, ih (by omega)]
    exact turn

theorem gates_rpSidt {k : Nat} (inside : k < rcx) :
    gates (rpSidt rax rdx rcx m rdi) rdi k = Gate.decode rax rdx := by
  induction rcx generalizing m rdi k with
  | zero => omega
  | succ rcx ih =>
    rw [rpSidt, gates]
    cases k with
    | zero =>
      rw [← Gate.read_storeWords m rdi rax rdx]
      apply Gate.read_congr
      intro i low
      exact rpSidt_outside (by omega)
    | succ k =>
      have place : rdi + 16 * (k + 1) = rdi + 0x10 + 16 * k := by omega
      rw [place]
      exact ih (by omega)

theorem setupIDT_words (m : Memory) (idtTable : Nat) (ignoreInt rax rcx : BitVec 64) :
    setupIDT m idtTable ignoreInt rax rcx = rpSidt (kernelGate ignoreInt 0x8E 0).low.word
      (kernelGate ignoreInt 0x8E 0).high.word 256 m idtTable := by
  have attr : 0x8E00#64 <<< 32 = Field.put 64 ⟨32, (0 : BitVec 8).setWidth 3⟩ +
      Field.put 64 ⟨40, (0x8E : BitVec 8)⟩ := by decide
  have top (dst : BitVec 64) : shrl 16 (movl ignoreInt dst) <<< 48 =
      Field.put 64 ⟨48, ignoreInt.extractLsb' 16 16⟩ := by
    rw [shiftLeft_put _ (by decide : 64 ≤ 48 + 16), get_shrl (by decide), get_movl (by decide)]
  have low : movw ignoreInt (0x8#64 <<< 16) + 0x8E00#64 <<< 32 +
      shrl 16 (movl ignoreInt 0) <<< 48 = (kernelGate ignoreInt 0x8E 0).low.word := by
    rw [attr, top, movw_selector, kernelGate_low]
    simp only [BitVec.add_assoc]
  rw [← low, ← kernelGate_high]
  rfl

/- After setup_IDT every vector leads to ignore_int. -/
theorem gates_setupIDT (m : Memory) (idtTable : Nat) (ignoreInt rax rcx : BitVec 64) {k : Nat}
    (inside : k < 256) : gates (setupIDT m idtTable ignoreInt rax rcx) idtTable k =
      kernelGate ignoreInt 0x8E 0 := by
  rw [setupIDT_words, gates_rpSidt inside, Gate.decode_words]

theorem setupIDT_outside {ignoreInt rax rcx : BitVec 64}
    (outside : x < idtTable ∨ idtTable + 4096 ≤ x) :
    setupIDT m idtTable ignoreInt rax rcx x = m x := by
  rw [setupIDT_words]
  exact rpSidt_outside outside

end fill

/-- Whatever gates are set after setup_IDT, each of the 256 vectors has the gate of a call for it,
    or the gate to ignore_int when no call was for it. -/
theorem vector_handled (m : Memory) (idtTable : Nat) (ignoreInt rax rcx : BitVec 64)
    (calls : List Call) {k : Nat} (inside : k < 256) :
    let table := gates (calls.foldl (Call.run idtTable) (setupIDT m idtTable ignoreInt rax rcx))
      idtTable
    (∃ c ∈ calls, c.n.toNat = k ∧ table k = c.gate) ∨
      (∀ c ∈ calls, c.n.toNat ≠ k) ∧ table k = kernelGate ignoreInt 0x8E 0 := by
  intro table
  have by_calls := update_calls calls
    (gates (setupIDT m idtTable ignoreInt rax rcx) idtTable) k
  rw [← gates_calls, gates_setupIDT m idtTable ignoreInt rax rcx inside] at by_calls
  exact by_calls

section started
variable (entry : BitVec 32 → BitVec 64) (interrupt smpInterrupt : Nat → BitVec 64)
  (upper : BitVec 32 → BitVec 56)

def startCalls : List Call :=
  sysVectorInit entry upper ++ apicIOAPICInit interrupt upper ++ smpInit smpInterrupt upper

theorem startCalls_different :
    (startCalls entry interrupt smpInterrupt upper).Pairwise fun c d => c.n ≠ d.n := by
  have vectors : (startCalls entry interrupt smpInterrupt upper).map Call.n =
      (startCalls (fun _ => 0) (fun _ => 0) (fun _ => 0) fun _ => 0).map Call.n := rfl
  rw [← List.pairwise_map (R := (· ≠ ·)), vectors]
  decide +kernel

/-- When the kernel has started, every vector has the handler that was set for it, with the kind
    of its setter, and the others still lead to ignore_int. -/
theorem started_gates (m : Memory) (idtTable : Nat) (ignoreInt rax rcx : BitVec 64) :
    let calls := startCalls entry interrupt smpInterrupt upper
    let table := gates (calls.foldl (Call.run idtTable) (setupIDT m idtTable ignoreInt rax rcx))
      idtTable
    (∀ c ∈ calls, table c.n.toNat = c.gate) ∧
      ∀ k < 256, (∀ c ∈ calls, c.n.toNat ≠ k) → table k = kernelGate ignoreInt 0x8E 0 := by
  intro calls table
  have meant : table = calls.foldl Call.update
      (gates (setupIDT m idtTable ignoreInt rax rcx) idtTable) := gates_calls calls _
  constructor
  · intro c member
    rw [meant]
    exact update_present (startCalls_different entry interrupt smpInterrupt upper) member
  · intro k inside absent
    rw [meant, update_absent absent, gates_setupIDT m idtTable ignoreInt rax rcx inside]

end started

end InterruptTable

import Q2os.ForkRuns

/- malloc of a program, on the heap that brk grows. -/
namespace UserHeap
open PageAllocator PageRuns SlabInit TableTree Run AddressSpace

def sizeAlign : Nat := 64

structure Statics where
  brkStartAddress : Nat
  brkUsedAddress : Nat
  brkEndAddress : Nat

def stubResult (rax : Nat) : Nat := if rax < 2 ^ 64 - 0x1000 then rax else 2 ^ 64 - 1

/- No header of the programs declares brk, so its value is an int, extended by its sign where it is
   assigned to an unsigned long. -/
def intResult (rax : Nat) : Nat :=
  if rax % 2 ^ 32 < 2 ^ 31 then rax % 2 ^ 32 else 2 ^ 64 - 2 ^ 32 + rax % 2 ^ 32

def brk (s : System) (address : Nat) : Option (System × Nat) :=
  (sysBrk s.kernel s.task.mm address).map fun r =>
    ({ s with kernel := r.1, task := { s.task with mm := r.2.1 } }, intResult (stubResult r.2.2))

def openHeap (s : System) (m : Statics) : Option (System × Statics) :=
  if m.brkStartAddress = 0 then (brk s 0).map fun r => (r.1, ⟨r.2, r.2, r.2⟩)
  else some (s, m)

def short (m : Statics) (size : Nat) : Prop :=
  m.brkEndAddress ≤ (m.brkUsedAddress + sizeAlign + size) % 2 ^ 64

instance (m : Statics) (size : Nat) : Decidable (short m size) :=
  inferInstanceAs (Decidable (_ ≤ _))

def newEnd (m : Statics) (size : Nat) : Nat :=
  (m.brkEndAddress + (size + sizeAlign + pageSize - 1) % 2 ^ 64 / pageSize * pageSize) % 2 ^ 64

def growHeap (s : System) (m : Statics) (size : Nat) : Option (System × Statics) :=
  if short m size then
    (brk s (newEnd m size)).map fun r => (r.1, { m with brkEndAddress := r.2 })
  else some (s, m)

def malloc (s : System) (m : Statics) (size : Int) : Option (System × Statics × Nat) :=
  if size ≤ 0 then some (s, m, 0)
  else do
    let (s, m) ← openHeap s m
    let (s, m) ← growHeap s m size.toNat
    let address := m.brkUsedAddress
    return (s, { m with brkUsedAddress := (address + (size.toNat + sizeAlign)) % 2 ^ 64 }, address)

/-- A process with the statics of its malloc and the blocks that it has returned. -/
structure Process where
  system : System
  statics : Statics
  blocks : List (Nat × Nat)

inductive Event where
  | malloc (size : Int)
  | beside (e : AddressSpace.Event)

/- What goes on beside malloc: neither a do_execve nor a brk of the program itself. -/
def Beside : AddressSpace.Event → Prop
  | .exec _ | .brk _ => False
  | _ => True

def withBlock (blocks : List (Nat × Nat)) (address : Nat) (size : Int) : List (Nat × Nat) :=
  if address = 0 then blocks else (address, size.toNat) :: blocks

inductive Step : Process → Event → Process → Prop where
  | malloc {p : Process} {size : Int} {s : System} {m : Statics} {address : Nat}
      (long : size < 2 ^ 63) (call : malloc p.system p.statics size = some (s, m, address)) :
      Step p (.malloc size) ⟨s, m, withBlock p.blocks address size⟩
  | beside {p : Process} {e : AddressSpace.Event} {s : System} (own : Beside e)
      (step : AddressSpace.Step p.system e s) : Step p (.beside e) { p with system := s }

/- A do_execve has returned: the first one, or a later one. -/
def Launched (b : Machine) (p : Process) : Prop :=
  p.statics = ⟨0, 0, 0⟩ ∧ p.blocks = [] ∧
    (Start b p.system ∨ ∃ s₀ es s image, Start b s₀ ∧ Steps AddressSpace.Step s₀ es s ∧
      AddressSpace.Step s (.exec image) p.system)

def Mapped (s : System) (a : Nat) : Prop :=
  ∃ q, mapping s.kernel.memory s.task.mm.pgd a = some q

def Apart (e e' : Nat × Nat) : Prop := e.1 + e.2 ≤ e'.1 ∨ e'.1 + e'.2 ≤ e.1

/-- The blocks that malloc has returned are inside the heap, mapped and disjoint. -/
structure Safe (p : Process) : Prop where
  inside : ∀ e ∈ p.blocks, p.system.task.mm.startBrk ≤ e.1 ∧
    e.1 + e.2 ≤ p.system.task.mm.endBrk
  mapped : ∀ e ∈ p.blocks, ∀ a, e.1 ≤ a → a < e.1 + e.2 → Mapped p.system a
  apart : p.blocks.Pairwise Apart

def Granted (pgd : Nat) : Kernel → Nat → Nat → Prop
  | _, 0, _ => True
  | k, n + 1, i => (∀ k', mapPage k pgd i ≠ some (k', false)) ∧
      ∀ k', mapPage k pgd i = some (k', true) → Granted pgd k' n (i + pageSize)

def BrkGranted (s : System) (address : Nat) : Prop :=
  Granted s.task.mm.pgd s.kernel
    ((page2MAlign address - s.task.mm.endBrk + pageSize - 1) / pageSize) s.task.mm.endBrk

/- The brk call of a malloc, where it makes one, is granted its pages and stays below 2GB, and a
   child goes on with a heap of one page at most. -/
def Allowed (p : Process) : Event → Prop
  | .malloc size => 0 < size → ∀ s m, openHeap p.system p.statics = some (s, m) →
      short m size.toNat → BrkGranted s (newEnd m size.toNat) ∧ newEnd m size.toNat < 2 ^ 31
  | .beside .forkChild => p.system.task.mm.endBrk ≤ p.system.task.mm.startBrk + pageSize
  | .beside _ => True

theorem mapping_in_page {memory : Words} {pgd j a : Nat} (low : pageSize * j ≤ a)
    (high : a < pageSize * j + pageSize) :
    mapping memory pgd a = mapping memory pgd (pageSize * j) := by
  unfold pageSize at low high
  have root : gdtIndex a = gdtIndex (2 ^ 21 * j) := by
    unfold gdtIndex
    omega
  have second : index1G a = index1G (2 ^ 21 * j) := by
    unfold index1G
    omega
  have third : index2M a = index2M (2 ^ 21 * j) := by
    unfold index2M
    omega
  have user : a < userEnd ↔ 2 ^ 21 * j < userEnd := by
    unfold userEnd
    omega
  unfold mapping pathOf pageSize
  simp only [root, second, third, user]

structure Extends (memory memory' : Words) (pgd i r : Nat) : Prop where
  new : ∀ a, i ≤ a → a < r → ∃ q, mapping memory' pgd a = some q
  old : ∀ a q, mapping memory pgd a = some q → mapping memory' pgd a = some q

variable {boot : Nat → Prop} {otherPages : List Nat} {otherBlocks : List (Nat × Nat)}

theorem brk_pages_granted {k k' : Kernel} {pgd n j r : Nat} {level : Nat → List Nat}
    (sound : Sound boot otherPages otherBlocks k.account) (space : Space k pgd level)
    (low : pageSize * j ≤ userEnd) (granted : Granted pgd k n (pageSize * j))
    (call : brkPages k pgd n (pageSize * j) = some (k', r)) :
    r = pageSize * (j + n) ∧ r ≤ userEnd ∧
      Extends k.memory k'.memory pgd (pageSize * j) r := by
  induction n generalizing k j level with
  | zero =>
    cases call
    exact ⟨rfl, low, fun a above below => absurd below (Nat.not_lt.mpr above), fun _ _ there => there⟩
  | succ n ih =>
    rw [brkPages] at call
    split at call
    · next user =>
      obtain ⟨⟨k₁, ok⟩, mapped, call⟩ := Option.bind_eq_some_iff.mp call
      cases ok with
      | false => exact absurd mapped (granted.1 k₁)
      | true =>
        have next_page : pageSize * j + pageSize = pageSize * (j + 1) := rfl
        have low' : pageSize * (j + 1) ≤ userEnd := by
          unfold userEnd pageSize at *
          omega
        obtain ⟨sound₁, level₁, space₁⟩ := map_page_spec sound space user mapped
        obtain ⟨⟨q, here⟩, kept⟩ := map_page_maps sound space user mapped
        have rest := granted.2 k₁ mapped
        dsimp only at call
        rw [next_page] at rest call
        obtain ⟨last, far, more⟩ := ih sound₁ space₁ low' rest call
        refine ⟨by rw [last, Nat.add_right_comm, Nat.add_assoc], far, fun a above below => ?_,
          fun a q there => more.old a q (kept a q there)⟩
        by_cases beyond : pageSize * (j + 1) ≤ a
        · exact more.new a beyond below
        · refine ⟨q, more.old a q ?_⟩
          rw [mapping_in_page above (by rw [next_page]; omega)]
          exact here
    · cases call

theorem brk_step {s s' : System} {address r : Nat} (call : brk s address = some (s', r)) :
    AddressSpace.Step s (.brk address) s' := by
  obtain ⟨⟨k, mm, r'⟩, called, made⟩ := Option.map_eq_some_iff.mp call
  cases made
  exact .brk called

theorem intResult_small {rax : Nat} (small : rax < 2 ^ 31) : intResult rax = rax := by
  have kept : rax % 2 ^ 32 = rax := Nat.mod_eq_of_lt (by omega)
  rw [intResult, kept, if_pos small]

theorem intResult_large {rax : Nat} (low : 2 ^ 31 ≤ rax) (high : rax < 2 ^ 32) :
    intResult rax = 2 ^ 64 - 2 ^ 32 + rax := by
  rw [intResult, Nat.mod_eq_of_lt high, if_neg (Nat.not_lt.mpr low)]

theorem brk_zero {s : System} (start : s.task.mm.startBrk = brkStart) :
    brk s 0 = some (s, brkStart) := by
  have zero : page2MAlign 0 = 0 := by decide
  have kept : intResult (stubResult brkStart) = brkStart := by decide
  unfold brk sysBrk
  rw [zero, if_pos rfl, start]
  dsimp only [Option.map_some]
  rw [kept]

/-- A brk beyond the end of the heap that is granted its pages, below 2GB. -/
theorem brk_granted {s s' : System} {j n r : Nat} (ready : Ready boot s)
    (last : s.task.mm.endBrk = pageSize * j) (far : pageSize * j ≤ userEnd)
    (some_pages : 0 < n) (small : pageSize * (j + n) < 2 ^ 31)
    (granted : BrkGranted s (pageSize * (j + n)))
    (call : brk s (pageSize * (j + n)) = some (s', r)) :
    r = pageSize * (j + n) ∧ pageSize * (j + n) ≤ userEnd ∧
      s'.task.mm = { s.task.mm with endBrk := pageSize * (j + n) } ∧
      Extends s.kernel.memory s'.kernel.memory s.task.mm.pgd (pageSize * j) (pageSize * (j + n)) := by
  obtain ⟨level, space⟩ := ready.space
  have split_pages : pageSize * (j + n) = pageSize * j + pageSize * n := Nat.mul_add ..
  have aligned : page2MAlign (pageSize * (j + n)) = pageSize * (j + n) := by
    unfold page2MAlign
    unfold pageSize at *
    omega
  have pages : (pageSize * (j + n) - pageSize * j + pageSize - 1) / pageSize = n := by
    rw [split_pages]
    unfold pageSize
    omega
  unfold BrkGranted at granted
  rw [aligned, last, pages] at granted
  obtain ⟨⟨k, mm, r'⟩, called, made⟩ := Option.map_eq_some_iff.mp call
  unfold sysBrk at called
  dsimp only at called
  rw [aligned, last, if_neg (by unfold pageSize; omega), if_neg (by omega), doBrk, pages] at called
  obtain ⟨⟨k', e⟩, grown, built⟩ := Option.map_eq_some_iff.mp called
  obtain ⟨rfl, low, more⟩ := brk_pages_granted ready.sound space far granted grown
  cases built
  cases made
  refine ⟨?_, low, rfl, more⟩
  have rax : pageSize * (j + n) < 2 ^ 64 - 0x1000 := Nat.lt_of_le_of_lt low (by decide)
  rw [stubResult, if_pos rax, intResult_small small]

/-- The statics are those of the heap of the process, which is mapped, and the blocks end below
the used address. -/
structure Opened (boot : Nat → Prop) (s : System) (m : Statics) (blocks : List (Nat × Nat)) :
    Prop where
  ready : Ready boot s
  start : m.brkStartAddress = brkStart
  last : m.brkEndAddress = s.task.mm.endBrk
  pages : ∃ j, s.task.mm.endBrk = pageSize * j
  user : s.task.mm.endBrk ≤ userEnd
  low : brkStart ≤ m.brkUsedAddress
  high : m.brkUsedAddress ≤ s.task.mm.endBrk
  mapped : ∀ a, brkStart ≤ a → a < s.task.mm.endBrk → Mapped s a
  below : ∀ e ∈ blocks, brkStart ≤ e.1 ∧ e.1 + e.2 ≤ m.brkUsedAddress
  apart : blocks.Pairwise Apart

theorem Opened.moved {s s' : System} {m : Statics} {blocks : List (Nat × Nat)}
    (opened : Opened boot s m blocks) (ready : Ready boot s')
    (last : s'.task.mm.endBrk = s.task.mm.endBrk)
    (mapped : ∀ a, brkStart ≤ a → a < s.task.mm.endBrk → Mapped s' a) : Opened boot s' m blocks := by
  refine ⟨ready, opened.start, ?_, ?_, ?_, opened.low, ?_, ?_, opened.below, opened.apart⟩
  · rw [last]
    exact opened.last
  · rw [last]
    exact opened.pages
  · rw [last]
    exact opened.user
  · rw [last]
    exact opened.high
  · rw [last]
    exact mapped

/- No malloc yet. -/
structure Fresh (boot : Nat → Prop) (s : System) (m : Statics) (blocks : List (Nat × Nat)) :
    Prop where
  ready : Ready boot s
  statics : m = ⟨0, 0, 0⟩
  last : s.task.mm.endBrk = brkStart
  none : blocks = []

theorem open_fresh {s s' : System} {m m' : Statics} {blocks : List (Nat × Nat)}
    (fresh : Fresh boot s m blocks) (call : openHeap s m = some (s', m')) :
    Opened boot s' m' blocks := by
  obtain ⟨ready, rfl, last, rfl⟩ := fresh
  unfold openHeap at call
  rw [if_pos rfl] at call
  obtain ⟨⟨s₁, r⟩, called, made⟩ := Option.map_eq_some_iff.mp call
  cases made
  rw [brk_zero ready.start] at called
  cases called
  refine ⟨ready, rfl, last.symm, ⟨6, last⟩, ?_, Nat.le_refl _, ?_, ?_, nofun, .nil⟩
  · rw [last]
    decide
  · rw [last]
  · intro a above below
    rw [last] at below
    exact absurd below (Nat.not_lt.mpr above)

theorem open_opened {s : System} {m : Statics} {blocks : List (Nat × Nat)}
    (opened : Opened boot s m blocks) : openHeap s m = some (s, m) := by
  unfold openHeap
  rw [opened.start]
  rfl

/-- After the test of its end, the heap has room for the block and its alignment. -/
theorem grow_opened {s s' : System} {m m' : Statics} {blocks : List (Nat × Nat)} {size : Nat}
    (opened : Opened boot s m blocks) (long : size < 2 ^ 63)
    (granted : short m size → BrkGranted s (newEnd m size) ∧ newEnd m size < 2 ^ 31)
    (call : growHeap s m size = some (s', m')) :
    Opened boot s' m' blocks ∧ m'.brkUsedAddress + sizeAlign + size ≤ s'.task.mm.endBrk := by
  have high := opened.high
  have user := opened.user
  have end_eq := opened.last
  have no_carry : (m.brkUsedAddress + sizeAlign + size) % 2 ^ 64 =
      m.brkUsedAddress + sizeAlign + size := by
    unfold userEnd at user
    unfold sizeAlign
    omega
  unfold growHeap at call
  split at call
  · next small =>
    obtain ⟨⟨s₁, r⟩, called, made⟩ := Option.map_eq_some_iff.mp call
    cases made
    obtain ⟨granted, below⟩ := granted small
    have ready := step_ready opened.ready (brk_step called)
    obtain ⟨j, last⟩ := opened.pages
    generalize pages_eq : (size + sizeAlign + pageSize - 1) / pageSize = n
    have target : newEnd m size = pageSize * (j + n) := by
      unfold newEnd
      rw [end_eq, last, Nat.mul_add]
      rw [last] at user
      unfold userEnd at user
      unfold sizeAlign pageSize at *
      omega
    have some_pages : 0 < n := by
      rw [← pages_eq]
      unfold sizeAlign pageSize
      omega
    rw [target] at granted below called
    obtain ⟨rfl, far, mm, more⟩ := brk_granted opened.ready last (last ▸ user) some_pages below
      granted called
    have room : m.brkUsedAddress + sizeAlign + size ≤ pageSize * (j + n) := by
      rw [last] at high
      rw [Nat.mul_add]
      unfold sizeAlign pageSize at *
      omega
    have grown : s₁.task.mm.endBrk = pageSize * (j + n) := by rw [mm]
    refine ⟨⟨ready, opened.start, grown.symm, ⟨j + n, grown⟩, ?_, opened.low, ?_, ?_, opened.below,
      opened.apart⟩, ?_⟩
    · rw [grown]
      exact far
    · rw [grown]
      dsimp only
      omega
    · intro a above under
      rw [grown] at under
      unfold Mapped
      rw [mm]
      by_cases there : a < pageSize * j
      · obtain ⟨q, there⟩ := opened.mapped a above (last ▸ there)
        exact ⟨q, more.old a q there⟩
      · exact more.new a (Nat.not_lt.mp there) under
    · rw [grown]
      exact room
  · next enough =>
    cases call
    unfold short at enough
    rw [no_carry, end_eq] at enough
    exact ⟨opened, Nat.le_of_lt (Nat.not_le.mp enough)⟩

/-- The block is cut from the used address on. -/
theorem take_opened {s : System} {m : Statics} {blocks : List (Nat × Nat)} {size : Nat}
    (opened : Opened boot s m blocks)
    (room : m.brkUsedAddress + sizeAlign + size ≤ s.task.mm.endBrk) :
    Opened boot s { m with brkUsedAddress := (m.brkUsedAddress + (size + sizeAlign)) % 2 ^ 64 }
      ((m.brkUsedAddress, size) :: blocks) := by
  have user := opened.user
  have low := opened.low
  have no_carry : (m.brkUsedAddress + (size + sizeAlign)) % 2 ^ 64 =
      m.brkUsedAddress + (size + sizeAlign) := by
    unfold userEnd at user
    omega
  rw [no_carry]
  refine ⟨opened.ready, opened.start, opened.last, opened.pages, user, ?_, ?_, opened.mapped, ?_, ?_⟩
  · dsimp only
    omega
  · dsimp only
    omega
  · intro e member
    dsimp only
    rcases List.mem_cons.mp member with rfl | before
    · exact ⟨low, by dsimp only; omega⟩
    · have old := opened.below e before
      exact ⟨old.1, by omega⟩
  · refine List.pairwise_cons.mpr ⟨fun e before => ?_, opened.apart⟩
    exact Or.inr (opened.below e before).2

def Inv (boot : Nat → Prop) (p : Process) : Prop :=
  Fresh boot p.system p.statics p.blocks ∨ Opened boot p.system p.statics p.blocks

theorem malloc_inv {p : Process} {s : System} {m : Statics} {size : Int} {address : Nat}
    (inv : Inv boot p) (long : size < 2 ^ 63) (granted : Allowed p (.malloc size))
    (call : malloc p.system p.statics size = some (s, m, address)) :
    Inv boot ⟨s, m, withBlock p.blocks address size⟩ := by
  unfold malloc at call
  split at call
  · cases call
    exact inv
  · next positive =>
    have granted := granted (Int.not_le.mp positive)
    obtain ⟨⟨s₁, m₁⟩, first, call⟩ := Option.bind_eq_some_iff.mp call
    obtain ⟨⟨s₂, m₂⟩, second, call⟩ := Option.bind_eq_some_iff.mp call
    cases call
    have opened : Opened boot s₁ m₁ p.blocks := by
      rcases inv with fresh | opened
      · exact open_fresh fresh first
      · rw [open_opened opened] at first
        cases first
        exact opened
    have small : size.toNat < 2 ^ 63 := by omega
    obtain ⟨grown, room⟩ := grow_opened opened small (granted s₁ m₁ first) second
    have not_null : m₂.brkUsedAddress ≠ 0 := by
      have low := grown.low
      unfold brkStart at low
      omega
    right
    unfold withBlock
    rw [if_neg not_null]
    exact take_opened grown room

theorem beside_mapping {s s' : System} {e : AddressSpace.Event} (ready : Ready boot s)
    (own : Beside e) (parent : e ≠ .forkChild) (step : AddressSpace.Step s e s') :
    s'.task.mm = s.task.mm ∧
      ∀ v, mapping s'.kernel.memory s.task.mm.pgd v = mapping s.kernel.memory s.task.mm.pgd v := by
  obtain ⟨level, space⟩ := ready.space
  cases step with
  | exec => cases own
  | brk => cases own
  | forkChild => exact absurd rfl parent
  | @vforkChild k child call =>
    obtain ⟨_, memory, _, _, same⟩ := fork_taken ready.sound call (Or.inl rfl)
    refine ⟨same child rfl, fun v => ?_⟩
    rw [memory]
  | @write v o word q mapped inside =>
    obtain ⟨_, p, held, rfl⟩ := mapping_page space mapped
    refine ⟨rfl, mapping_same space (page_same ready.sound space (List.mem_append_left _ held) ?_)⟩
    intro a outside
    refine Function.update_of_ne ?_ ..
    omega
  | forkParent call => exact ⟨rfl, mapping_same space (fork_same_tables ready.sound space call).2⟩
  | forkNone call =>
    obtain ⟨_, memory, _⟩ := fork_taken ready.sound call (Or.inr rfl)
    refine ⟨rfl, fun v => ?_⟩
    rw [memory]
  | other => exact ⟨rfl, fun v => rfl⟩
  | @store a word outside =>
    refine ⟨rfl, mapping_same space fun n deep t listed i small => ?_⟩
    have apart := slot_outside (outside t (space.tables n deep t listed)) small
    exact Function.update_of_ne (Ne.symm apart) ..

theorem child_heap {s s' : System} (ready : Ready boot s)
    (step : AddressSpace.Step s .forkChild s') :
    s'.task.mm.endBrk = s.task.mm.endBrk ∧ (s.task.mm.endBrk ≠ brkStart →
      ∀ a, brkStart ≤ a → a < brkStart + pageSize → Mapped s' a) := by
  obtain ⟨level, space⟩ := ready.space
  cases step with
  | @forkChild k child blocks pages call newBlocks newPages =>
    obtain ⟨k₀, sound, _, _, _, _, _, copied⟩ := do_fork_spec ready.sound space call
    obtain ⟨pdpt, pdt, p, kept, cases⟩ := copy_mm_spec sound copied
    rcases cases with ⟨none, made, _⟩ | ⟨_, h, made, _⟩
    · exact ⟨made.end_brk, fun some_heap => absurd (none.trans ready.start) some_heap⟩
    · refine ⟨made.end_brk, fun _ a above under => ?_⟩
      have low : a < 2 ^ 30 := by
        unfold brkStart pageSize at under
        omega
      have heap : index2M a = 6 := by
        unfold brkStart at above
        unfold brkStart pageSize at under
        unfold index2M
        omega
      have found := made.built.mapping_first (made.built.placed kept) low
      rw [heap, heap_entry_heap, if_neg (page_entry_odd h)] at found
      exact ⟨_, found⟩

theorem child_opened {s s' : System} {m : Statics} {blocks : List (Nat × Nat)}
    (opened : Opened boot s m blocks) (one : s.task.mm.endBrk ≤ s.task.mm.startBrk + pageSize)
    (step : AddressSpace.Step s .forkChild s') : Opened boot s' m blocks := by
  obtain ⟨last, heap⟩ := child_heap opened.ready step
  have start := opened.ready.start
  refine opened.moved (step_ready opened.ready step) last fun a above under => ?_
  exact heap (by omega) a above (by omega)

theorem beside_opened {s s' : System} {m : Statics} {blocks : List (Nat × Nat)}
    {e : AddressSpace.Event} (opened : Opened boot s m blocks) (own : Beside e)
    (parent : e ≠ .forkChild) (step : AddressSpace.Step s e s') : Opened boot s' m blocks := by
  obtain ⟨mm, same⟩ := beside_mapping opened.ready own parent step
  refine opened.moved (step_ready opened.ready step) (by rw [mm]) fun a above under => ?_
  unfold Mapped
  rw [mm, same]
  exact opened.mapped a above under

theorem beside_inv {p : Process} {s : System} {e : AddressSpace.Event} (inv : Inv boot p)
    (own : Beside e) (allowed : Allowed p (.beside e)) (step : AddressSpace.Step p.system e s) :
    Inv boot { p with system := s } := by
  by_cases child : e = .forkChild
  · subst child
    rcases inv with fresh | opened
    · have last := (child_heap fresh.ready step).1
      left
      exact ⟨step_ready fresh.ready step, fresh.statics, last.trans fresh.last, fresh.none⟩
    · right
      exact child_opened opened allowed step
  · rcases inv with fresh | opened
    · obtain ⟨mm, _⟩ := beside_mapping fresh.ready own child step
      left
      exact ⟨step_ready fresh.ready step, fresh.statics, by rw [mm]; exact fresh.last, fresh.none⟩
    · right
      exact beside_opened opened own child step

theorem step_inv {p p' : Process} {e : Event} (inv : Inv boot p)
    (step : Guarded Allowed Step p e p') : Inv boot p' := by
  obtain ⟨step, allowed⟩ := step
  cases step with
  | malloc long call => exact malloc_inv inv long allowed call
  | beside own step => exact beside_inv inv own allowed step

theorem do_execve_end {k k' : AddressSpace.Kernel} {t t' : Task} {image : Words}
    (call : doExecve k t image = some (k', t')) : t'.mm.endBrk = brkStart := by
  obtain ⟨⟨k₁, mm⟩, _, call⟩ := Option.bind_eq_some_iff.mp call
  obtain ⟨⟨k₂, ok⟩, _, call⟩ := Option.bind_eq_some_iff.mp call
  cases ok with
  | false => cases call
  | true =>
    obtain ⟨page, _, call⟩ := Option.bind_eq_some_iff.mp call
    cases call
    rfl

theorem launched_fresh {b : Machine} {p : Process} (bootable : Bootable b)
    (launched : Launched b p) : Fresh (bootInUse b) p.system p.statics p.blocks := by
  obtain ⟨statics, blocks, start | ⟨s₀, es, s, image, start, run, exec⟩⟩ := launched
  · obtain ⟨_, a, memory, initPgd, t, image, _, _, call, _⟩ := start.before
    exact ⟨start_ready bootable start, statics, do_execve_end call, blocks⟩
  · have ready := step_ready (run_ready bootable start run) exec
    refine ⟨ready, statics, ?_, blocks⟩
    generalize p.system = s' at exec
    cases exec with
    | exec call => exact do_execve_end call

theorem inv_safe {p : Process} (inv : Inv boot p) : Safe p := by
  rcases inv with fresh | opened
  · have none := fresh.none
    refine ⟨?_, ?_, ?_⟩
    · rw [none]
      exact nofun
    · rw [none]
      exact nofun
    · rw [none]
      exact .nil
  · have high := opened.high
    refine ⟨fun e member => ?_, fun e member a above under => ?_, opened.apart⟩
    · obtain ⟨low, last⟩ := opened.below e member
      rw [opened.ready.start]
      exact ⟨low, by omega⟩
    · obtain ⟨low, last⟩ := opened.below e member
      exact opened.mapped a (by omega) (by omega)

/-- In every run whose brk calls get the pages they ask for and end below 2GB, malloc returns blocks
that are inside the heap, mapped and disjoint. -/
theorem malloc_safe (b : Machine) (bootable : Bootable b) (p₀ p : Process) (es : List Event)
    (launched : Launched b p₀) (run : Steps (Guarded Allowed Step) p₀ es p) : Safe p :=
  inv_safe (@invariant_of_step _ _ _ (Inv (bootInUse b)) (fun _ _ _ => step_inv) _ _ _ run
    (Or.inl (launched_fresh bootable launched)))

/- Once the heap has grown to 2GB, malloc keeps an end that no block reaches: it returns blocks past
   the end of the heap without a brk. -/
theorem malloc_past_end {s : System} {m : Statics} {size : Nat} (opened : m.brkStartAddress ≠ 0)
    (kept : m.brkEndAddress = intResult s.task.mm.endBrk) (low : 2 ^ 31 ≤ s.task.mm.endBrk)
    (used : m.brkUsedAddress ≤ s.task.mm.endBrk) (past : s.task.mm.endBrk < m.brkUsedAddress + size)
    (below : m.brkUsedAddress + sizeAlign + size < 2 ^ 32) :
    ∃ m', malloc s m size = some (s, m', m.brkUsedAddress) := by
  have last : m.brkEndAddress = 2 ^ 64 - 2 ^ 32 + s.task.mm.endBrk :=
    kept.trans (intResult_large low (by omega))
  have no_brk : ¬ short m size := by
    unfold short
    rw [last]
    omega
  have positive : ¬ (size : Int) ≤ 0 := by omega
  have kept_open : openHeap s m = some (s, m) := if_neg opened
  have kept_end : growHeap s m (size : Int).toNat = some (s, m) := if_neg no_brk
  unfold malloc
  rw [if_neg positive, kept_open]
  dsimp only [Option.bind_eq_bind, Option.bind_some]
  rw [kept_end]
  exact ⟨_, rfl⟩

theorem first_brk {s : System} {k : AddressSpace.Kernel} {r : Nat}
    (last : s.task.mm.endBrk = brkStart)
    (grown : brkPages s.kernel s.task.mm.pgd 1 brkStart = some (k, r)) :
    brk s (brkStart + pageSize) = some
      ({ s with kernel := k, task := { s.task with mm := { s.task.mm with endBrk := r } } },
        intResult (stubResult r)) := by
  have aligned : page2MAlign (brkStart + pageSize) = brkStart + pageSize := by decide
  have pages : (brkStart + pageSize - brkStart + pageSize - 1) / pageSize = 1 := by decide
  unfold brk sysBrk
  dsimp only
  rw [aligned, last, if_neg (by decide), if_neg (by decide), doBrk, pages, grown]
  rfl

theorem first_malloc {s s' : System} {r : Nat} (start : s.task.mm.startBrk = brkStart)
    (called : brk s (brkStart + pageSize) = some (s', r)) :
    openHeap s ⟨0, 0, 0⟩ = some (s, ⟨brkStart, brkStart, brkStart⟩) ∧
      malloc s ⟨0, 0, 0⟩ 1 = some (s', ⟨brkStart, brkStart + 1 + sizeAlign, r⟩, brkStart) := by
  have opened : openHeap s ⟨0, 0, 0⟩ = some (s, ⟨brkStart, brkStart, brkStart⟩) := by
    unfold openHeap
    rw [if_pos rfl, brk_zero start]
    rfl
  have small : short ⟨brkStart, brkStart, brkStart⟩ 1 := by decide
  have target : newEnd ⟨brkStart, brkStart, brkStart⟩ 1 = brkStart + pageSize := by decide
  have one : (1 : Int).toNat = 1 := rfl
  refine ⟨opened, ?_⟩
  unfold malloc
  rw [if_neg (by decide), opened, one]
  dsimp only [Option.bind_eq_bind, Option.bind_some]
  unfold growHeap
  rw [if_pos small, target, called]
  rfl

theorem first_launch {b : Machine} {tables pages : Nat} (bootable : Bootable b)
    (stocked : Stocked (Kmalloc.slabInit (initMemory b)) 1 (tables + 3) 1 (pages + 1)) :
    ∃ k t k₀ address pdpt pdt p, Launched b ⟨⟨k, t, [], []⟩, ⟨0, 0, 0⟩, []⟩ ∧
      Stocked k.account.heap 0 tables 1 pages ∧
      Built k₀ k address t.mm.pgd pdpt pdt [p] (codeEntry p) ∧
      k.account.heap.g = (allocPages (Kmalloc.slabInit (initMemory b)).g zoneNormal 1).1 := by
  let t : Task := ⟨0, pfVfork, ⟨0, 0, 0, 0⟩⟩
  have vfork : t.flags &&& pfVfork ≠ 0 := by decide
  have booted : Sound (bootInUse b) [] [] ⟨Kmalloc.slabInit (initMemory b), [], []⟩ :=
    ⟨(BootPages.boot_ready bootable).inv, trivial⟩
  generalize at_boot : Kmalloc.slabInit (initMemory b) = h at stocked booted ⊢
  obtain ⟨k, t', exec, _, left, _⟩ := @do_execve_some _ _ _ ⟨⟨h, [], []⟩, fun _ => 0, 0⟩
    0 tables 1 pages t (fun _ => 0) booted vfork stocked
  obtain ⟨address, pdpt, pdt, p, _, built, taken⟩ :=
    @exec_built _ _ _ ⟨⟨h, [], []⟩, fun _ => 0, 0⟩ _ 0 tables _ _ _ _ _ booted vfork stocked exec
  exact ⟨k, t', _, address, pdpt, pdt, p, ⟨rfl, rfl, Or.inl (start_of_exec at_boot vfork exec)⟩, left,
    built, taken⟩

theorem malloc_safe_one : ∃ p, Safe p ∧ p.blocks = [(brkStart, 1)] := by
  obtain ⟨k, t, _, _, _, _, _, launched, left, _⟩ :=
    @first_launch machine128 2 1 HeapRuns.machine128_bootable
      ⟨by decide +kernel, by decide +kernel, by decide +kernel, by decide +kernel⟩
  have fresh := launched_fresh HeapRuns.machine128_bootable launched
  have last : t.mm.endBrk = brkStart := fresh.last
  obtain ⟨k', mapped, _⟩ := @map_page_some _ _ _ k 0 0 1 0 fresh.ready.sound left t.mm.pgd brkStart
  have grown : brkPages k t.mm.pgd 1 brkStart = some (k', brkStart + pageSize) := by
    rw [brkPages, if_pos (by decide), mapped]
    rfl
  have called := first_brk (s := ⟨k, t, [], []⟩) last grown
  obtain ⟨opened, returned⟩ := first_malloc (s := ⟨k, t, [], []⟩) fresh.ready.start called
  have granted : BrkGranted ⟨k, t, [], []⟩ (brkStart + pageSize) := by
    have aligned : page2MAlign (brkStart + pageSize) = brkStart + pageSize := by decide
    have pages : (brkStart + pageSize - brkStart + pageSize - 1) / pageSize = 1 := by decide
    unfold BrkGranted
    dsimp only
    rw [aligned, last, pages]
    refine ⟨fun k₁ full => ?_, fun _ _ => trivial⟩
    rw [mapped] at full
    cases full
  have allowed : Allowed ⟨⟨k, t, [], []⟩, ⟨0, 0, 0⟩, []⟩ (.malloc 1) := by
    intro _ s m first _
    cases opened.symm.trans first
    exact ⟨granted, by decide⟩
  exact ⟨_, malloc_safe machine128 HeapRuns.machine128_bootable _ _ _ launched
    (steps_single ⟨.malloc (by decide) returned, allowed⟩), rfl⟩

theorem map_page_none {k₀ k : AddressSpace.Kernel} {address pgd pdpt pdt p : Nat}
    (placed : Placed pgd pdpt pdt) (built : Built k₀ k address pgd pdpt pdt [p] (codeEntry p))
    (none_left : (allocPages k.account.heap.g zoneNormal 1).2 = none) :
    mapPage k pgd brkStart = some (k, false) := by
  have root := built.root 0 (by omega)
  have second := built.second 0 (by omega)
  have third := built.third 6 (by omega)
  have heap_entry : codeEntry p 6 = 0 := code_entry_above p (by omega)
  have tmp := slotAt_built built placed
  have first_slot : slotOf pgd (gdtIndex brkStart) = slot pgd 0 := by
    rw [slotOf, base_aligned (placed.aligned pgd (by simp))]
    rfl
  have second_slot : slotOf (k.memory (slot pgd 0)) (index1G brkStart) = slot pdpt 0 := by
    rw [root, if_pos rfl, slotOf_table (placed.aligned pdpt (by simp)) (by decide)]
    rfl
  have first_full : ensureTable k (slot pgd 0) = some k := by
    refine if_neg ?_
    rw [root, if_pos rfl]
    unfold pageUserDir
    omega
  have second_full : ensureTable k (slot pdpt 0) = some k := by
    refine if_neg ?_
    rw [second, if_pos rfl]
    unfold pageUserDir
    omega
  have no_page : linkPage k (slot pdt 6) = none := by
    unfold linkPage allocPage
    generalize allocPages k.account.heap.g zoneNormal 1 = r at none_left ⊢
    obtain ⟨g, found⟩ := r
    cases none_left
    rfl
  unfold slotAt at tmp
  rw [first_slot] at tmp
  dsimp only at tmp
  rw [second_slot] at tmp
  unfold mapPage
  dsimp only
  rw [first_slot, first_full]
  dsimp only [Option.bind_eq_bind, Option.bind_some]
  rw [second_slot, second_full]
  dsimp only [Option.bind_some]
  rw [tmp, if_pos (third.trans heap_entry), no_page]
  rfl

/- Of 36MB one page is left, for the code. -/
def machine36 : Machine where
  table := fun i =>
    if i = 0 then ⟨0, 0x9fc00, 1⟩ else if i = 1 then ⟨0x100000, 0x2300000, 1⟩ else ⟨0, 0, 0⟩
  startBrk := 0xffff800000180000
  memory := fun _ => 0

theorem machine36_bootable : Bootable machine36 where
  zones := by decide +kernel
  structures := by decide +kernel
  low := by decide +kernel
  direct := by decide +kernel
  counted := by decide +kernel
  slabs := by decide +kernel

/-- brk has failed, and malloc returns the address that it asked a page for. -/
theorem malloc_unmapped : ∃ p₀ p, Launched machine36 p₀ ∧ Steps Step p₀ [.malloc 1] p ∧
    p.blocks = [(brkStart, 1)] ∧ ¬ Safe p := by
  obtain ⟨k, t, k₀, address, pdpt, pdt, page, launched, _, built, taken⟩ :=
    @first_launch machine36 0 0 machine36_bootable
      ⟨by decide +kernel, by decide +kernel, by decide +kernel, by decide +kernel⟩
  have none_left : (allocPages k.account.heap.g zoneNormal 1).2 = none := by
    rw [taken]
    decide +kernel
  have fresh := launched_fresh machine36_bootable launched
  have placed := built.placed fresh.ready.sound
  have full := map_page_none placed built none_left
  have grown : brkPages k t.mm.pgd 1 brkStart = some (k, minusENOMEM) := by
    rw [brkPages, if_pos (by decide), full]
    rfl
  have called := first_brk (s := ⟨k, t, [], []⟩) fresh.last grown
  obtain ⟨_, returned⟩ := first_malloc (s := ⟨k, t, [], []⟩) fresh.ready.start called
  refine ⟨_, _, launched, steps_single (.malloc (by decide) returned), rfl, fun safe => ?_⟩
  obtain ⟨q, mapped⟩ := safe.mapped (brkStart, 1) List.mem_cons_self brkStart (Nat.le_refl _)
    (Nat.lt_succ_self _)
  have heap_entry : codeEntry page (index2M brkStart) = 0 := code_entry_above page (by decide)
  have missing := built.mapping_first placed (v := brkStart) (by decide)
  rw [heap_entry] at missing
  cases missing.symm.trans mapped

end UserHeap

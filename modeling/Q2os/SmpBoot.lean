import Mathlib.Logic.Function.Basic
import Q2os.Run

/- SMP_init on the boot processor against the start-up code of the application processors, from
   kernel_header.S to the spin_unlock of Start_SMP: one access to what they share a step. -/
namespace SmpBoot
open Run

def stackSize : Nat := 32768

def processors : Nat := 4

/- Where the boot processor is in its loop: at spin_lock, at the kmalloc of the stack and the
   store to _stack_start, at the kmalloc for the ist fields, at set_tss_descriptor, at the two
   start-up IPIs, at global_i++, and behind the loop. -/
inductive BspPc where
  | lock
  | stack
  | ist
  | descriptor
  | firstIpi
  | secondIpi
  | increment
  | done
  deriving DecidableEq

/- Where an application processor is: not started, at the two loads of _stack_start in
   kernel_header.S, at the two in Start_SMP, at the load of global_i, at ltr with an index, at
   spin_unlock, in its idle loop, or stopped by a #GP. -/
inductive ApPc where
  | off
  | header32
  | header64
  | threadRsp0
  | threadRsp
  | index
  | ltr (n : Nat)
  | unlock
  | idle
  | fault
  deriving DecidableEq

/- usedStacks are the values of _stack_start it has used, tr the index in its task register. -/
structure Ap where
  pc : ApPc
  usedStacks : List Nat
  tr : Option Nat

def waitForSipi : Ap := ⟨.off, [], none⟩

structure Descriptor where
  tss : Nat
  busy : Bool

/- free is the lock word of SMP_lock at 1; blocks are what kmalloc has handed out, behind the
   stack of the boot processor; stackOf is the stack allocated for each processor. -/
structure System where
  globalI : Nat
  free : Bool
  stackStart : Nat
  gdt : Nat → Option Descriptor
  bsp : BspPc
  ap : Nat → Ap
  blocks : List Nat
  stackOf : Nat → Option Nat

/- block is the answer of kmalloc where the boot processor calls it. -/
inductive Event where
  | bsp (block : Nat)
  | ap (k : Nat)

def Apart (a b : Nat) : Prop := a + stackSize ≤ b ∨ b + stackSize ≤ a

instance (a b : Nat) : Decidable (Apart a b) := inferInstanceAs (Decidable (_ ∨ _))

def setAp (s : System) (k : Nat) (a : Ap) : System := { s with ap := Function.update s.ap k a }

/- A start-up IPI: a processor that runs ignores it. -/
def startUp (s : System) (k : Nat) : System :=
  if (s.ap k).pc = .off then setAp s k { s.ap k with pc := .header32 } else s

def nextBsp (s : System) (block : Nat) : Option System :=
  match s.bsp with
  | .lock => if s.free then some { s with free := false, bsp := .stack } else none
  | .stack =>
    if ∀ b ∈ s.blocks, Apart block b then
      some { s with
        blocks := block :: s.blocks
        stackOf := Function.update s.stackOf s.globalI (some block)
        stackStart := block + stackSize
        bsp := .ist }
    else none
  | .ist =>
    if ∀ b ∈ s.blocks, Apart block b then
      some { s with blocks := block :: s.blocks, bsp := .descriptor }
    else none
  | .descriptor =>
    some { s with
      gdt := Function.update s.gdt (10 + s.globalI * 2) (some ⟨s.globalI, false⟩)
      bsp := .firstIpi }
  | .firstIpi => some { startUp s s.globalI with bsp := .secondIpi }
  | .secondIpi => some { startUp s s.globalI with bsp := .increment }
  | .increment =>
    some { s with
      globalI := s.globalI + 1
      bsp := if s.globalI + 1 < processors then .lock else .done }
  | .done => none

def useStack (s : System) (k : Nat) (pc : ApPc) : System :=
  setAp s k { s.ap k with usedStacks := (s.ap k).usedStacks ++ [s.stackStart], pc := pc }

def loadTr (s : System) (k n : Nat) : System :=
  match s.gdt n with
  | some ⟨tss, false⟩ =>
    { setAp s k { s.ap k with tr := some n, pc := .unlock } with
      gdt := Function.update s.gdt n (some ⟨tss, true⟩) }
  | _ => setAp s k { s.ap k with pc := .fault }

def nextAp (s : System) (k : Nat) : Option System :=
  match (s.ap k).pc with
  | .header32 => some (useStack s k .header64)
  | .header64 => some (useStack s k .threadRsp0)
  | .threadRsp0 => some (useStack s k .threadRsp)
  | .threadRsp => some (useStack s k .index)
  | .index => some (setAp s k { s.ap k with pc := .ltr (10 + (s.globalI - 1) * 2) })
  | .ltr n => some (loadTr s k n)
  | .unlock => some { setAp s k { s.ap k with pc := .idle } with free := true }
  | .off => none
  | .idle => none
  | .fault => none

def next (s : System) : Event → Option System
  | .bsp block => nextBsp s block
  | .ap k => nextAp s k

def Step (s : System) (e : Event) (t : System) : Prop := next s e = some t

/- Behind spin_init and the INIT IPI: the boot processor has loaded the descriptor 10 and runs on
   the stack of init_task_union at block. -/
def smpInit (gdt : Nat → Option Descriptor) (block : Nat) : System where
  globalI := 1
  free := true
  stackStart := block + stackSize
  gdt := Function.update gdt 10 (some ⟨0, true⟩)
  bsp := .lock
  ap := fun _ => waitForSipi
  blocks := [block]
  stackOf := Function.update (fun _ => none) 0 (some block)

/-- An application processor uses the stack allocated for it, and the index it loads or has loaded
    is its own. -/
structure Slot (stack : Option Nat) (k : Nat) (a : Ap) : Prop where
  stack : ∀ r ∈ a.usedStacks, ∃ b, stack = some b ∧ r = b + stackSize
  index : ∀ n, a.tr = some n ∨ a.pc = .ltr n → n = 10 + 2 * k
  no_fault : a.pc ≠ .fault

/-- The slots of the processors: an index that is loaded has the descriptor set for its processor,
    the stacks are apart, and no two processors have one index, the 10 of the boot processor
    included. -/
structure Slots (s : System) : Prop where
  slot : ∀ k, Slot (s.stackOf k) k (s.ap k)
  descriptor : ∀ k n, (s.ap k).tr = some n → s.gdt n = some ⟨k, true⟩
  stacks_apart : ∀ j k a b, j ≠ k → s.stackOf j = some a → s.stackOf k = some b → Apart a b
  own_index : ∀ j k n, (s.ap j).tr = some n → n ≠ 10 ∧ ((s.ap k).tr = some n → j = k)

/- The load of global_i comes behind the increment of the iteration that started the processor. -/
def Incremented (s : System) : Event → Prop
  | .ap k => (s.ap k).pc = .index → s.globalI = k + 1
  | .bsp _ => True

instance (s : System) (e : Event) : Decidable (Incremented s e) := by
  cases e <;> simp only [Incremented] <;> infer_instance

def Placed (_ : System) (_ : Event) (t : System) : Prop := Slots t

def Starting : ApPc → Prop
  | .header32 | .header64 | .threadRsp0 | .threadRsp | .index => True
  | _ => False

def StackReady (s : System) (k : Nat) : Prop :=
  ∃ b, s.stackOf k = some b ∧ s.stackStart = b + stackSize

def TssReady (s : System) (k : Nat) : Prop := s.gdt (10 + 2 * k) = some ⟨k, false⟩

def Prepared (s : System) : Prop :=
  match s.bsp with
  | .lock | .done => s.free = true
  | .stack => s.free = false
  | .ist | .descriptor => s.free = false ∧ StackReady s s.globalI
  | .firstIpi => s.free = false ∧ StackReady s s.globalI ∧ TssReady s s.globalI
  | _ => False

/- How far the boot processor is while the processor k starts. -/
def Behind (s : System) (k : Nat) (pc : ApPc) : Prop :=
  (s.globalI = k ∧ (s.bsp = .secondIpi ∨ s.bsp = .increment) ∧ Starting pc) ∨
    (s.globalI = k + 1 ∧ (s.bsp = .lock ∨ s.bsp = .done))

def Active (pc : ApPc) : Prop := Starting pc ∨ (∃ n, pc = .ltr n) ∨ pc = .unlock

/- The processors below k are in their loops, those from m on and the boot processor's own place
   are not started. -/
structure Others (ap : Nat → Ap) (k m : Nat) : Prop where
  idle : ∀ j, 0 < j → j < k → (ap j).pc = .idle
  off : ∀ j, j = 0 ∨ m ≤ j → ap j = waitForSipi

/-- Whose turn it is: the boot processor prepares the next iteration, or one application processor
    starts and has the lock. -/
inductive Turn (s : System) : Prop where
  | bsp (others : Others s.ap s.globalI s.globalI) (prepared : Prepared s)
  | ap (k : Nat) (others : Others s.ap k (k + 1)) (held : s.free = false) (stack : StackReady s k)
      (tss : (s.ap k).pc ≠ .unlock → TssReady s k)
      (active : Active (s.ap k).pc) (behind : Behind s k (s.ap k).pc)

structure Inv (s : System) : Prop where
  slots : Slots s
  first : 0 < s.globalI
  taken : ∀ k b, s.stackOf k = some b → b ∈ s.blocks
  turn : Turn s

theorem slot_off (stack : Option Nat) (k : Nat) : Slot stack k waitForSipi := by
  refine ⟨?_, ?_, ?_⟩
  · intro r member
    cases member
  · rintro n (loaded | at_)
    · cases loaded
    · cases at_
  · decide

theorem slots_of {s : System} (slot : ∀ k, Slot (s.stackOf k) k (s.ap k))
    (descriptor : ∀ k n, (s.ap k).tr = some n → s.gdt n = some ⟨k, true⟩)
    (stacks_apart : ∀ j k a b, j ≠ k → s.stackOf j = some a → s.stackOf k = some b → Apart a b)
    (zero : s.ap 0 = waitForSipi) : Slots s := by
  refine ⟨slot, descriptor, stacks_apart, fun j k n loaded => ⟨?_, fun also => ?_⟩⟩
  · have own := (slot j).index n (Or.inl loaded)
    have started : j ≠ 0 := by
      rintro rfl
      rw [zero] at loaded
      cases loaded
    omega
  · have first := (slot j).index n (Or.inl loaded)
    have second := (slot k).index n (Or.inl also)
    omega

theorem Slots.keep {s t : System} (h : Slots s) (ap : t.ap = s.ap) (gdt : t.gdt = s.gdt)
    (stackOf : t.stackOf = s.stackOf) : Slots t := by
  refine ⟨?_, ?_, ?_, ?_⟩
  · rw [ap, stackOf]
    exact h.slot
  · rw [ap, gdt]
    exact h.descriptor
  · rw [stackOf]
    exact h.stacks_apart
  · rw [ap]
    exact h.own_index

theorem init_inv (gdt : Nat → Option Descriptor) (block : Nat) : Inv (smpInit gdt block) := by
  refine ⟨slots_of ?_ ?_ ?_ rfl, Nat.one_pos, ?_, .bsp ⟨?_, fun _ _ => rfl⟩ rfl⟩
  · exact fun k => slot_off _ k
  · intro k n loaded
    cases loaded
  · intro j k a b differ first second
    simp only [smpInit, Function.update_apply] at first second
    split at first
    · split at second
      · omega
      · cases second
    · cases first
  · intro k b placed
    simp only [smpInit, Function.update_apply] at placed
    split at placed
    · cases placed
      exact List.mem_singleton.mpr rfl
    · cases placed
  · intro j positive below
    simp only [smpInit] at below
    omega

theorem stack_inv {s : System} {block : Nat} (inv : Inv s) (others : Others s.ap s.globalI s.globalI)
    (held : s.free = false) (apart : ∀ b ∈ s.blocks, Apart block b) :
    Inv { s with
      blocks := block :: s.blocks
      stackOf := Function.update s.stackOf s.globalI (some block)
      stackStart := block + stackSize
      bsp := .ist } := by
  have away : ∀ j b, j ≠ s.globalI → Function.update s.stackOf s.globalI (some block) j = some b →
      s.stackOf j = some b := by
    intro j b other placed
    rwa [Function.update_of_ne other] at placed
  refine ⟨slots_of ?_ inv.slots.descriptor ?_ (others.off 0 (Or.inl rfl)), inv.first, ?_, ?_⟩
  · intro j
    by_cases here : j = s.globalI
    · have off := others.off j (Or.inr (Nat.le_of_eq here.symm))
      show Slot _ j (s.ap j)
      rw [off]
      exact slot_off _ j
    · show Slot (Function.update s.stackOf s.globalI (some block) j) j (s.ap j)
      rw [Function.update_of_ne here]
      exact inv.slots.slot j
  · intro j k a b differ first second
    dsimp only at first second
    by_cases at_j : j = s.globalI
    · have at_k : k ≠ s.globalI := fun same => differ (at_j.trans same.symm)
      rw [at_j, Function.update_self] at first
      cases first
      exact apart b (inv.taken k b (away k b at_k second))
    · by_cases at_k : k = s.globalI
      · rw [at_k, Function.update_self] at second
        cases second
        exact (apart a (inv.taken j a (away j a at_j first))).symm
      · exact inv.slots.stacks_apart j k a b differ (away j a at_j first) (away k b at_k second)
  · intro j b placed
    dsimp only at placed ⊢
    by_cases here : j = s.globalI
    · rw [here, Function.update_self] at placed
      cases placed
      exact List.mem_cons_self
    · exact List.mem_cons_of_mem _ (inv.taken j b (away j b here placed))
  · exact .bsp others ⟨held, block, Function.update_self .., rfl⟩

theorem descriptor_inv {s : System} (inv : Inv s) (others : Others s.ap s.globalI s.globalI)
    (held : s.free = false) (stack : StackReady s s.globalI) :
    Inv { s with
      gdt := Function.update s.gdt (10 + s.globalI * 2) (some ⟨s.globalI, false⟩)
      bsp := .firstIpi } := by
  have place : 10 + s.globalI * 2 = 10 + 2 * s.globalI := by omega
  rw [place]
  refine ⟨slots_of inv.slots.slot ?_ inv.slots.stacks_apart (others.off 0 (Or.inl rfl)), inv.first,
    inv.taken, .bsp others ⟨held, stack, Function.update_self ..⟩⟩
  intro j n loaded
  have own := (inv.slots.slot j).index n (Or.inl loaded)
  have started : j ≠ s.globalI := by
    intro here
    have off := others.off j (Or.inr (Nat.le_of_eq here.symm))
    dsimp only at loaded
    rw [off] at loaded
    cases loaded
  have other : n ≠ 10 + 2 * s.globalI := by omega
  exact (Function.update_of_ne other _ _).trans (inv.slots.descriptor j n loaded)

theorem Others.set {ap : Nat → Ap} {k m j : Nat} (others : Others ap k m) (a : Ap)
    (low : k ≤ j) (high : j < m) (started : j ≠ 0) : Others (Function.update ap j a) k m := by
  refine ⟨fun i positive less => ?_, fun i far => ?_⟩
  · rw [Function.update_of_ne (by omega)]
    exact others.idle i positive less
  · rw [Function.update_of_ne (by omega)]
    exact others.off i far

theorem ipi_inv {s : System} (inv : Inv s) (others : Others s.ap s.globalI s.globalI)
    (held : s.free = false) (stack : StackReady s s.globalI) (tss : TssReady s s.globalI) :
    Inv { startUp s s.globalI with bsp := .secondIpi } := by
  have off := others.off s.globalI (Or.inr (Nat.le_refl _))
  have first := inv.first
  have started : startUp s s.globalI =
      setAp s s.globalI ⟨.header32, [], none⟩ := by
    unfold startUp
    rw [off]
    rfl
  have elsewhere : ∀ j, j ≠ s.globalI →
      Function.update s.ap s.globalI ⟨.header32, [], none⟩ j = s.ap j :=
    fun j other => Function.update_of_ne other _ _
  have here : Function.update s.ap s.globalI ⟨.header32, [], none⟩ s.globalI =
      ⟨.header32, [], none⟩ := Function.update_self ..
  rw [started]
  refine ⟨slots_of ?_ ?_ inv.slots.stacks_apart ?_, first, inv.taken, ?_⟩
  · intro j
    show Slot _ j (Function.update s.ap s.globalI ⟨.header32, [], none⟩ j)
    by_cases at_ : j = s.globalI
    · rw [at_, here]
      refine ⟨fun r member => ?_, fun n => ?_, by decide⟩
      · cases member
      · rintro (loaded | at_)
        · cases loaded
        · cases at_
    · rw [elsewhere j at_]
      exact inv.slots.slot j
  · intro j n loaded
    simp only [setAp] at loaded
    by_cases at_ : j = s.globalI
    · rw [at_, here] at loaded
      cases loaded
    · rw [elsewhere j at_] at loaded
      exact inv.slots.descriptor j n loaded
  · show Function.update s.ap s.globalI ⟨.header32, [], none⟩ 0 = waitForSipi
    rw [elsewhere 0 (by omega)]
    exact others.off 0 (Or.inl rfl)
  · have pc : (Function.update s.ap s.globalI ⟨.header32, [], none⟩ s.globalI).pc = .header32 := by
      rw [here]
    have next : Others s.ap s.globalI (s.globalI + 1) :=
      ⟨others.idle, fun j far => others.off j (by omega)⟩
    refine .ap s.globalI (next.set _ (Nat.le_refl _) (Nat.lt_succ_self _) (by omega)) held stack
      (fun _ => tss) (Or.inl ?_) (Or.inl ⟨rfl, Or.inl rfl, ?_⟩)
    · show Starting (Function.update s.ap s.globalI ⟨.header32, [], none⟩ s.globalI).pc
      rw [pc]
      trivial
    · show Starting (Function.update s.ap s.globalI ⟨.header32, [], none⟩ s.globalI).pc
      rw [pc]
      trivial

theorem prepare_inv {s t : System} {block : Nat} (inv : Inv s)
    (others : Others s.ap s.globalI s.globalI) (prepared : Prepared s)
    (ran : nextBsp s block = some t) : Inv t := by
  unfold Prepared at prepared
  unfold nextBsp at ran
  cases at_ : s.bsp with
  | lock =>
    rw [at_] at prepared ran
    have free : s.free = true := prepared
    simp only [free, ↓reduceIte] at ran
    cases ran
    exact ⟨inv.slots.keep rfl rfl rfl, inv.first, inv.taken, .bsp others rfl⟩
  | stack =>
    rw [at_] at prepared ran
    have held : s.free = false := prepared
    simp only [Option.ite_none_right_eq_some] at ran
    obtain ⟨apart, made⟩ := ran
    cases made
    exact stack_inv inv others held apart
  | ist =>
    rw [at_] at prepared ran
    obtain ⟨held, stack⟩ := prepared
    simp only [Option.ite_none_right_eq_some] at ran
    obtain ⟨apart, made⟩ := ran
    cases made
    exact ⟨inv.slots.keep rfl rfl rfl, inv.first, fun k b placed => List.mem_cons_of_mem _ (inv.taken k b placed),
      .bsp others ⟨held, stack⟩⟩
  | descriptor =>
    rw [at_] at prepared ran
    obtain ⟨held, stack⟩ := prepared
    cases ran
    exact descriptor_inv inv others held stack
  | firstIpi =>
    rw [at_] at prepared ran
    obtain ⟨held, stack, tss⟩ := prepared
    cases ran
    exact ipi_inv inv others held stack tss
  | secondIpi =>
    rw [at_] at prepared
    exact absurd prepared id
  | increment =>
    rw [at_] at prepared
    exact absurd prepared id
  | done =>
    rw [at_] at ran
    cases ran

theorem bsp_inv {s t : System} {block : Nat} (inv : Inv s) (ran : nextBsp s block = some t) :
    Inv t := by
  cases inv.turn with
  | bsp others prepared => exact prepare_inv inv others prepared ran
  | ap k others held stack tss active behind =>
    rcases behind with ⟨index, at_ | at_, starting⟩ | ⟨index, at_ | at_⟩
    · -- the second IPI finds the processor started
      have started : ¬ (s.ap s.globalI).pc = .off := by
        rw [index]
        intro off
        rw [off] at starting
        exact starting
      simp only [nextBsp, at_, startUp, if_neg started] at ran
      cases ran
      exact ⟨inv.slots.keep rfl rfl rfl, inv.first, inv.taken,
        .ap k others held stack tss active (Or.inl ⟨index, Or.inr rfl, starting⟩)⟩
    · simp only [nextBsp, at_] at ran
      cases ran
      refine ⟨inv.slots.keep rfl rfl rfl, Nat.succ_pos _, inv.taken, .ap k others held stack tss active (Or.inr ?_)⟩
      refine ⟨congrArg (· + 1) index, ?_⟩
      dsimp only
      split
      · exact Or.inl rfl
      · exact Or.inr rfl
    · simp [nextBsp, at_, held] at ran
    · simp [nextBsp, at_] at ran

/-- An application processor on its way has the lock to itself. -/
structure Running (s : System) (k : Nat) : Prop where
  positive : 0 < k
  others : Others s.ap k (k + 1)
  held : s.free = false
  stack : StackReady s k
  tss : (s.ap k).pc ≠ .unlock → TssReady s k
  active : Active (s.ap k).pc
  behind : Behind s k (s.ap k).pc

theorem others_still {s : System} {k m j : Nat} (others : Others s.ap k m) (other : j < k ∨ m ≤ j) :
    nextAp s j = none := by
  unfold nextAp
  by_cases first : j = 0
  · rw [others.off j (Or.inl first)]
    rfl
  · rcases other with below | above
    · rw [others.idle j (by omega) below]
    · rw [others.off j (Or.inr above)]
      rfl

theorem step_running {s t : System} {k : Nat} (inv : Inv s) (ran : nextAp s k = some t) :
    Running s k := by
  cases inv.turn with
  | bsp others prepared =>
    rw [others_still others (by omega)] at ran
    cases ran
  | ap j others held stack tss active behind =>
    by_cases same : k = j
    · rw [same]
      refine ⟨?_, others, held, stack, tss, active, behind⟩
      by_contra zero
      have off := others.off j (Or.inl (by omega))
      rw [off] at active
      rcases active with starting | ⟨n, at_⟩ | at_
      · exact starting
      · cases at_
      · cases at_
    · rw [others_still others (by omega)] at ran
      cases ran

theorem goOn_inv {s : System} {k : Nat} {a : Ap} (inv : Inv s) (running : Running s k)
    (slot : Slot (s.stackOf k) k a) (tr : a.tr = (s.ap k).tr)
    (before : (s.ap k).pc ≠ .unlock) (active : Active a.pc) (behind : Behind s k a.pc) :
    Inv (setAp s k a) := by
  have positive := running.positive
  have here : Function.update s.ap k a k = a := Function.update_self ..
  refine ⟨slots_of ?_ ?_ inv.slots.stacks_apart ?_, inv.first, inv.taken, ?_⟩
  · intro j
    show Slot _ j (Function.update s.ap k a j)
    by_cases at_ : j = k
    · rw [at_, here]
      exact slot
    · rw [Function.update_of_ne at_]
      exact inv.slots.slot j
  · intro j n loaded
    simp only [setAp] at loaded
    by_cases at_ : j = k
    · rw [at_, here, tr] at loaded
      rw [at_]
      exact inv.slots.descriptor k n loaded
    · rw [Function.update_of_ne at_] at loaded
      exact inv.slots.descriptor j n loaded
  · show Function.update s.ap k a 0 = waitForSipi
    rw [Function.update_of_ne (by omega)]
    exact running.others.off 0 (Or.inl rfl)
  · refine .ap k (running.others.set a (Nat.le_refl k) (Nat.lt_succ_self k) (by omega)) running.held
      running.stack (fun _ => running.tss before) ?_ ?_
    · show Active (Function.update s.ap k a k).pc
      rw [here]
      exact active
    · show Behind s k (Function.update s.ap k a k).pc
      rw [here]
      exact behind

theorem useStack_inv {s : System} {k : Nat} {pc : ApPc} (inv : Inv s) (running : Running s k)
    (from_ : Starting (s.ap k).pc) (to_ : Starting pc) : Inv (useStack s k pc) := by
  have old := inv.slots.slot k
  have behind := running.behind
  refine goOn_inv inv running ⟨fun r member => ?_, fun n => ?_, ?_⟩ rfl ?_ (Or.inl to_) ?_
  · rcases List.mem_append.mp member with before | last
    · exact old.stack r before
    · obtain ⟨b, placed, start⟩ := running.stack
      exact ⟨b, placed, (List.mem_singleton.mp last).trans start⟩
  · rintro (loaded | at_)
    · exact old.index n (Or.inl loaded)
    · dsimp only at at_
      rw [at_] at to_
      exact absurd to_ id
  · intro fault
    dsimp only at fault
    rw [fault] at to_
    exact to_
  · intro unlock
    rw [unlock] at from_
    exact from_
  · rcases behind with ⟨index, at_, _⟩ | later
    · exact Or.inl ⟨index, at_, to_⟩
    · exact Or.inr later

theorem index_inv {s : System} {k : Nat} (inv : Inv s) (running : Running s k)
    (at_ : (s.ap k).pc = .index) (index : s.globalI = k + 1) :
    Inv (setAp s k { s.ap k with pc := .ltr (10 + (s.globalI - 1) * 2) }) := by
  have old := inv.slots.slot k
  refine goOn_inv inv running ⟨old.stack, fun n => ?_, ?_⟩ rfl ?_ (Or.inr (Or.inl ⟨_, rfl⟩)) ?_
  · rintro (loaded | next)
    · exact old.index n (Or.inl loaded)
    · cases next
      omega
  · intro fault
    cases fault
  · rw [at_]
    decide
  · rcases running.behind with ⟨same, _⟩ | later
    · omega
    · exact Or.inr later

theorem ltr_inv {s : System} {k n : Nat} (inv : Inv s) (running : Running s k)
    (at_ : (s.ap k).pc = .ltr n) : Inv (loadTr s k n) := by
  have positive := running.positive
  have old := inv.slots.slot k
  have own : n = 10 + 2 * k := old.index n (Or.inr at_)
  have ready : s.gdt n = some ⟨k, false⟩ := by
    rw [own]
    apply running.tss
    rw [at_]
    exact ApPc.noConfusion
  have here : Function.update s.ap k { s.ap k with tr := some n, pc := .unlock } k =
      { s.ap k with tr := some n, pc := .unlock } := Function.update_self ..
  simp only [loadTr, ready]
  refine ⟨slots_of ?_ ?_ inv.slots.stacks_apart ?_, inv.first, inv.taken, ?_⟩
  · intro j
    show Slot _ j (Function.update s.ap k { s.ap k with tr := some n, pc := .unlock } j)
    by_cases same : j = k
    · rw [same, here]
      refine ⟨old.stack, fun m => ?_, ?_⟩
      · rintro (loaded | next)
        · cases loaded
          exact own
        · cases next
      · intro fault
        cases fault
    · rw [Function.update_of_ne same]
      exact inv.slots.slot j
  · intro j m loaded
    simp only [setAp] at loaded ⊢
    by_cases same : j = k
    · rw [same, here] at loaded
      cases loaded
      rw [same]
      exact Function.update_self ..
    · rw [Function.update_of_ne same] at loaded
      have other := (inv.slots.slot j).index m (Or.inl loaded)
      rw [Function.update_of_ne (by omega)]
      exact inv.slots.descriptor j m loaded
  · show Function.update s.ap k { s.ap k with tr := some n, pc := .unlock } 0 = waitForSipi
    rw [Function.update_of_ne (by omega)]
    exact running.others.off 0 (Or.inl rfl)
  · refine .ap k (running.others.set _ (Nat.le_refl k) (Nat.lt_succ_self k) (by omega)) running.held
      running.stack ?_ ?_ ?_
    · intro before
      simp only [setAp, here] at before
      exact absurd rfl before
    · show Active (Function.update s.ap k { s.ap k with tr := some n, pc := .unlock } k).pc
      rw [here]
      exact Or.inr (Or.inr rfl)
    · rcases running.behind with ⟨_, _, starting⟩ | later
      · rw [at_] at starting
        exact absurd starting id
      · exact Or.inr later

theorem unlock_inv {s : System} {k : Nat} (inv : Inv s) (running : Running s k)
    (at_ : (s.ap k).pc = .unlock) :
    Inv { setAp s k { s.ap k with pc := .idle } with free := true } := by
  have positive := running.positive
  have old := inv.slots.slot k
  have here : Function.update s.ap k { s.ap k with pc := .idle } k =
      { s.ap k with pc := .idle } := Function.update_self ..
  have elsewhere : ∀ j, j ≠ k → Function.update s.ap k { s.ap k with pc := .idle } j = s.ap j :=
    fun j other => Function.update_of_ne other _ _
  have later : s.globalI = k + 1 ∧ (s.bsp = .lock ∨ s.bsp = .done) := by
    rcases running.behind with ⟨_, _, starting⟩ | later
    · rw [at_] at starting
      exact absurd starting id
    · exact later
  refine ⟨slots_of ?_ ?_ inv.slots.stacks_apart ?_, inv.first, inv.taken, .bsp ⟨?_, ?_⟩ ?_⟩
  · intro j
    show Slot _ j (Function.update s.ap k { s.ap k with pc := .idle } j)
    by_cases same : j = k
    · rw [same, here]
      refine ⟨old.stack, fun m => ?_, ?_⟩
      · rintro (loaded | next)
        · exact old.index m (Or.inl loaded)
        · cases next
      · intro fault
        cases fault
    · rw [elsewhere j same]
      exact inv.slots.slot j
  · intro j m loaded
    simp only [setAp] at loaded ⊢
    by_cases same : j = k
    · rw [same, here] at loaded
      rw [same]
      exact inv.slots.descriptor k m loaded
    · rw [elsewhere j same] at loaded
      exact inv.slots.descriptor j m loaded
  · show Function.update s.ap k { s.ap k with pc := .idle } 0 = waitForSipi
    rw [elsewhere 0 (by omega)]
    exact running.others.off 0 (Or.inl rfl)
  · intro j started less
    show (Function.update s.ap k { s.ap k with pc := .idle } j).pc = .idle
    have below : j < k + 1 := later.1 ▸ less
    by_cases same : j = k
    · rw [same, here]
    · rw [elsewhere j same]
      exact running.others.idle j started (by omega)
  · intro j far
    show Function.update s.ap k { s.ap k with pc := .idle } j = waitForSipi
    have above : j = 0 ∨ k + 1 ≤ j := later.1 ▸ far
    rw [elsewhere j (by omega)]
    exact running.others.off j above
  · rcases later.2 with lock | done
    · simp only [Prepared, setAp, lock]
    · simp only [Prepared, setAp, done]

theorem ap_inv {s t : System} {k : Nat} (inv : Inv s) (ran : nextAp s k = some t)
    (incremented : Incremented s (.ap k)) : Inv t := by
  have running := step_running inv ran
  unfold nextAp at ran
  cases at_ : (s.ap k).pc with
  | header32 | header64 | threadRsp0 | threadRsp =>
    rw [at_] at ran
    cases ran
    exact useStack_inv inv running (by rw [at_]; trivial) trivial
  | index =>
    rw [at_] at ran
    cases ran
    exact index_inv inv running at_ (incremented at_)
  | ltr n =>
    rw [at_] at ran
    cases ran
    exact ltr_inv inv running at_
  | unlock =>
    rw [at_] at ran
    cases ran
    exact unlock_inv inv running at_
  | off | idle | fault =>
    rw [at_] at ran
    cases ran

/- An index read too early is the one of the processor before. -/
theorem slots_incremented {s t : System} {k : Nat} (inv : Inv s) (ran : nextAp s k = some t)
    (slots : Slots t) : Incremented s (.ap k) := by
  intro at_
  have first := inv.first
  simp only [nextAp, at_] at ran
  cases ran
  have here : Function.update s.ap k
      { s.ap k with pc := .ltr (10 + (s.globalI - 1) * 2) } k =
      { s.ap k with pc := .ltr (10 + (s.globalI - 1) * 2) } := Function.update_self ..
  have slot := slots.slot k
  simp only [setAp, here] at slot
  have own := slot.index (10 + (s.globalI - 1) * 2) (Or.inr rfl)
  omega

/-- The processors get their own slots in exactly the runs in which every processor loads global_i
    behind the increment of its iteration. -/
theorem own_slots_iff (gdt : Nat → Option Descriptor) (block : Nat) (es : List Event) (s : System) :
    Steps (Meeting Placed Step) (smpInit gdt block) es s ↔
      Steps (Guarded Incremented Step) (smpInit gdt block) es s := by
  have keep : ∀ s e t, Inv s → Step s e t → Incremented s e → Inv t := by
    intro s e t inv step incremented
    cases e with
    | bsp block => exact bsp_inv inv step
    | ap k => exact ap_inv inv step incremented
  have inTime : ∀ s e t, Inv s → Step s e t → Placed s e t → Incremented s e := by
    intro s e t inv step placed
    cases e with
    | bsp block => trivial
    | ap k => exact slots_incremented inv step placed
  have exact_ : ∀ s e t, Inv s → Step s e t → (Placed s e t ↔ Incremented s e) :=
    fun s e t inv step =>
      ⟨inTime s e t inv step, fun incremented => (keep s e t inv step incremented).slots⟩
  exact steps_meeting_iff exact_
    (fun s e t inv step placed => keep s e t inv step (inTime s e t inv step placed))
    (init_inv gdt block)

def early : List Event :=
  [.bsp 0, .bsp 65536, .bsp 131072, .bsp 0, .bsp 0, .ap 1, .ap 1, .ap 1, .ap 1, .ap 1]

def behind (s : System) (es : List Event) : System := (exec next s es).getD s

/- It takes the index 10 of the boot processor, whose descriptor is busy. -/
theorem early_index_shared :
    ∃ s t, Steps Step (smpInit (fun _ => none) 0) early s ∧ (s.ap 1).pc = .ltr 10 ∧
      Step s (.ap 1) t ∧ (t.ap 1).pc = .fault ∧ ¬ Slots t := by
  have ran : Steps Step (smpInit (fun _ => none) 0) early (behind (smpInit (fun _ => none) 0) early) :=
    .cons rfl (.cons rfl (.cons rfl (.cons rfl (.cons rfl (.cons rfl (.cons rfl (.cons rfl
      (.cons rfl (.cons rfl (.nil _))))))))))
  have fault : ((loadTr (behind (smpInit (fun _ => none) 0) early) 1 10).ap 1).pc = .fault := by
    decide
  exact ⟨_, _, ran, by decide, rfl, fault, fun slots => (slots.slot 1).no_fault fault⟩

end SmpBoot

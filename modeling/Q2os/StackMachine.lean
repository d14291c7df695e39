import Mathlib.Data.BitVec
import Mathlib.Logic.Function.Basic

/- Straight-line code of a 64-bit processor on a stack in memory, and the same code on a list of
   words: what the code does to a list is evaluated, and the memory follows by simulation. -/
namespace StackMachine

abbrev Word := BitVec 64

/- A memory with words at the addresses, where a store is seen at its own address and not by the
   words that lie apart from it. -/
class WordMemory (M : Type) where
  load : M → Nat → Word
  store : M → Nat → Word → M
  load_same (m : M) (a : Nat) (w : Word) : load (store m a w) a = w
  load_apart (m : M) (a b : Nat) (w : Word) (apart : a + 8 ≤ b ∨ b + 8 ≤ a) :
    load (store m a w) b = load m b

inductive Reg where
  | rax | rbx | rcx | rdx | rsi | rdi | rbp | rsp
  | r8 | r9 | r10 | r11 | r12 | r13 | r14 | r15
deriving DecidableEq

inductive Seg where
  | cs | ss | ds | es | fs | gs
deriving DecidableEq

structure Machine (M : Type) where
  reg : Reg → Word
  seg : Seg → BitVec 16
  rip : Word
  rflags : Word
  msr : Nat → Word
  memory : M

inductive Instr where
  | push (r : Reg)
  | pushImm (w : Word)
  | pop (r : Reg)
  | mov (source target : Reg)
  | movImm (w : Word) (target : Reg)
  | fromSeg (source : Seg) (target : Reg)
  | toSeg (source : Reg) (target : Seg)
  | load (offset : Nat) (base target : Reg)
  | store (source : Reg) (offset : Nat) (base : Reg)
  | put (source : Reg) (address : Nat)
  | get (address : Nat) (target : Reg)
  | pushMem (address : Nat)
  | add (w : Word) (target : Reg)
  | sub (w : Word) (target : Reg)
  | and (source target : Reg)
  | orImm (w : Word) (target : Reg)
  | xor (source target : Reg)
  | xchg (a b : Reg)
  | xchgTop (r : Reg)
  | cld
  | sti

variable {M : Type}

namespace Machine

def set (m : Machine M) (r : Reg) (w : Word) : Machine M :=
  { m with reg := Function.update m.reg r w }

def setSeg (m : Machine M) (s : Seg) (w : BitVec 16) : Machine M :=
  { m with seg := Function.update m.seg s w }

def sp (m : Machine M) : Nat := (m.reg .rsp).toNat

def drop (m : Machine M) : Machine M := m.set .rsp (m.reg .rsp + 8)

@[simp] theorem set_reg (m : Machine M) (r : Reg) (w : Word) :
    (m.set r w).reg = Function.update m.reg r w := rfl

@[simp] theorem set_memory (m : Machine M) (r : Reg) (w : Word) :
    (m.set r w).memory = m.memory := rfl

@[simp] theorem set_seg (m : Machine M) (r : Reg) (w : Word) : (m.set r w).seg = m.seg := rfl

@[simp] theorem setSeg_memory (m : Machine M) (s : Seg) (w : BitVec 16) :
    (m.setSeg s w).memory = m.memory := rfl

@[simp] theorem setSeg_seg (m : Machine M) (s : Seg) (w : BitVec 16) :
    (m.setSeg s w).seg = Function.update m.seg s w := rfl

@[simp] theorem setSeg_reg (m : Machine M) (s : Seg) (w : BitVec 16) :
    (m.setSeg s w).reg = m.reg := rfl

theorem set_sp (m : Machine M) {r : Reg} (w : Word) (other : r ≠ .rsp) : (m.set r w).sp = m.sp := by
  simp [sp, Function.update_of_ne other.symm]

theorem drop_sp {m : Machine M} (below : m.sp + 8 < 2 ^ 64) : m.drop.sp = m.sp + 8 := by
  simp only [sp] at below ⊢
  simp [drop, BitVec.toNat_add]
  omega

end Machine

variable [WordMemory M]

def load (m : M) (a : Nat) : Word := WordMemory.load m a

def store (m : M) (a : Nat) (w : Word) : M := WordMemory.store m a w

theorem load_store (m : M) (a : Nat) (w : Word) : load (store m a w) a = w :=
  WordMemory.load_same m a w

theorem load_store_apart (m : M) {a b : Nat} (w : Word) (apart : a + 8 ≤ b ∨ b + 8 ≤ a) :
    load (store m a w) b = load m b := WordMemory.load_apart m a b w apart

namespace Machine

def top (m : Machine M) : Word := load m.memory m.sp

def push (m : Machine M) (w : Word) : Machine M :=
  let a := m.reg .rsp - 8
  { m.set .rsp a with memory := store m.memory a.toNat w }

@[simp] theorem push_seg (m : Machine M) (w : Word) : (m.push w).seg = m.seg := rfl

@[simp] theorem push_rip (m : Machine M) (w : Word) : (m.push w).rip = m.rip := rfl

@[simp] theorem push_msr (m : Machine M) (w : Word) : (m.push w).msr = m.msr := rfl

theorem push_reg (m : Machine M) (w : Word) {r : Reg} (other : r ≠ .rsp) :
    (m.push w).reg r = m.reg r := Function.update_of_ne other _ _

theorem push_sp {m : Machine M} (w : Word) (room : 8 ≤ m.sp) : (m.push w).sp + 8 = m.sp := by
  simp only [sp] at room ⊢
  simp only [push, set_reg, Function.update_self, BitVec.toNat_sub]
  simp
  omega

theorem push_memory (m : Machine M) (w : Word) :
    (m.push w).memory = store m.memory (m.push w).sp w := by
  simp [push, sp]

def address (m : Machine M) (base : Reg) (offset : Nat) : Nat :=
  (m.reg base + BitVec.ofNat 64 offset).toNat

end Machine

/- The status flags after an arithmetic instruction are whatever the processor makes of it. -/
variable (status : Instr → Machine M → Word)

def exec (i : Instr) (m : Machine M) : Machine M :=
  match i with
  | .push r => m.push (m.reg r)
  | .pushImm w => m.push w
  | .pop r => m.drop.set r m.top
  | .mov s t => m.set t (m.reg s)
  | .movImm w t => m.set t w
  | .fromSeg s t => m.set t ((m.seg s).setWidth 64)
  | .toSeg s t => m.setSeg t ((m.reg s).setWidth 16)
  | .load offset base t => m.set t (load m.memory (m.address base offset))
  | .store s offset base =>
    { m with memory := store m.memory (m.address base offset) (m.reg s) }
  | .put s a => { m with memory := store m.memory a (m.reg s) }
  | .get a t => m.set t (load m.memory a)
  | .pushMem a => m.push (load m.memory a)
  | .add w t => { m.set t (m.reg t + w) with rflags := status i m }
  | .sub w t => { m.set t (m.reg t - w) with rflags := status i m }
  | .and s t => { m.set t (m.reg s &&& m.reg t) with rflags := status i m }
  | .orImm w t => { m.set t (w ||| m.reg t) with rflags := status i m }
  | .xor s t => { m.set t (m.reg s ^^^ m.reg t) with rflags := status i m }
  | .xchg a b => (m.set a (m.reg b)).set b (m.reg a)
  | .xchgTop r => { m.set r m.top with memory := store m.memory m.sp (m.reg r) }
  | .cld => { m with rflags := m.rflags &&& ~~~0x400 }
  | .sti => { m with rflags := m.rflags ||| 0x200 }

def run (code : List Instr) (m : Machine M) : Machine M := code.foldl (fun m i => exec status i m) m

section run
variable {status}

@[simp] theorem run_nil (m : Machine M) : run status [] m = m := rfl

@[simp] theorem run_cons (i : Instr) (code : List Instr) (m : Machine M) :
    run status (i :: code) m = run status code (exec status i m) := rfl

theorem run_append (first second : List Instr) (m : Machine M) :
    run status (first ++ second) m = run status second (run status first m) :=
  List.foldl_append

@[simp] theorem exec_rip (i : Instr) (m : Machine M) : (exec status i m).rip = m.rip := by
  cases i <;> rfl

@[simp] theorem exec_msr (i : Instr) (m : Machine M) : (exec status i m).msr = m.msr := by
  cases i <;> rfl

@[simp] theorem run_rip (code : List Instr) (m : Machine M) : (run status code m).rip = m.rip := by
  induction code generalizing m with
  | nil => rfl
  | cons i code ih => rw [run_cons, ih, exec_rip]

@[simp] theorem run_msr (code : List Instr) (m : Machine M) : (run status code m).msr = m.msr := by
  induction code generalizing m with
  | nil => rfl
  | cons i code ih => rw [run_cons, ih, exec_msr]

end run

def Words (m : M) : Nat → List Word → Prop
  | _, [] => True
  | a, w :: ws => load m a = w ∧ Words m (a + 8) ws

section words
variable {m m' : M} {a b : Nat} {ws : List Word}

theorem words_congr (same : ∀ x, a ≤ x → x + 8 ≤ a + 8 * ws.length → load m' x = load m x)
    (words : Words m a ws) : Words m' a ws := by
  induction ws generalizing a with
  | nil => trivial
  | cons w ws ih =>
    obtain ⟨first, rest⟩ := words
    simp only [List.length_cons] at same
    refine ⟨(same a (by omega) (by omega)).trans first, ih (fun x low high => ?_) rest⟩
    exact same x (by omega) (by omega)

theorem words_store (w : Word) (apart : b + 8 ≤ a ∨ a + 8 * ws.length ≤ b)
    (words : Words m a ws) : Words (store m b w) a ws := by
  apply words_congr _ words
  intro x low high
  exact load_store_apart m w (by omega)

theorem words_append {us : List Word} :
    Words m a (us ++ ws) ↔ Words m a us ∧ Words m (a + 8 * us.length) ws := by
  induction us generalizing a with
  | nil => simp [Words]
  | cons u us ih =>
    have next : a + 8 + 8 * us.length = a + 8 * (us.length + 1) := by omega
    simp [Words, ih, next, and_assoc]

theorem words_get {i : Nat} {w : Word} (words : Words m a ws) (got : ws[i]? = some w) :
    load m (a + 8 * i) = w := by
  induction ws generalizing a i with
  | nil => simp at got
  | cons v ws ih =>
    obtain ⟨first, rest⟩ := words
    cases i with
    | zero => simpa using first.trans (by simpa using got)
    | succ i =>
      have place : a + 8 * (i + 1) = a + 8 + 8 * i := by omega
      rw [place]
      exact ih rest (by simpa using got)

theorem words_set {i : Nat} (w : Word) (within : i < ws.length) (words : Words m a ws) :
    Words (store m (a + 8 * i) w) a (ws.set i w) := by
  induction ws generalizing a i with
  | nil => simp at within
  | cons v ws ih =>
    obtain ⟨first, rest⟩ := words
    cases i with
    | zero =>
      refine ⟨load_store m _ w, words_store w (by omega) rest⟩
    | succ i =>
      have place : a + 8 * (i + 1) = a + 8 + 8 * i := by omega
      rw [place]
      refine ⟨?_, ih (by simpa using within) rest⟩
      rw [load_store_apart m w (by omega), first]

theorem words_unique {us : List Word} (first : Words m a us) (second : Words m a ws)
    (length : us.length = ws.length) : us = ws := by
  induction us generalizing a ws with
  | nil => exact (List.length_eq_zero_iff.mp length.symm).symm
  | cons u us ih =>
    cases ws with
    | nil => simp at length
    | cons w ws =>
      rw [← first.1, ← second.1, ih first.2 second.2 (by simpa using length)]

theorem exists_words (m : M) (a n : Nat) : ∃ ws : List Word, ws.length = n ∧ Words m a ws := by
  induction n generalizing a with
  | zero => exact ⟨[], rfl, trivial⟩
  | succ n ih =>
    obtain ⟨ws, length, words⟩ := ih (a + 8)
    exact ⟨load m a :: ws, by simp [length], rfl, words⟩

end words

/- The registers and a part of the stack up to an address, as a list; room is for how many words
   more. -/
structure View where
  reg : Reg → Word
  seg : Seg → BitVec 16
  stack : List Word
  high : Nat
  room : Nat

structure Shows (m : Machine M) (v : View) : Prop where
  reg : ∀ r, r ≠ .rsp → m.reg r = v.reg r
  seg : m.seg = v.seg
  words : Words m.memory m.sp v.stack
  ends : m.sp + 8 * v.stack.length = v.high
  bound : v.high < 2 ^ 64
  room : 8 * v.room ≤ m.sp

namespace View

def set (v : View) (r : Reg) (w : Word) : View := { v with reg := Function.update v.reg r w }

@[simp] theorem set_stack (v : View) (r : Reg) (w : Word) : (v.set r w).stack = v.stack := rfl

@[simp] theorem set_high (v : View) (r : Reg) (w : Word) : (v.set r w).high = v.high := rfl

@[simp] theorem set_room (v : View) (r : Reg) (w : Word) : (v.set r w).room = v.room := rfl

def push (v : View) (w : Word) : Option View :=
  match v.room with
  | 0 => none
  | room + 1 => some { v with stack := w :: v.stack, room }

def get (v : View) (r : Reg) : Word :=
  if r = .rsp then BitVec.ofNat 64 (v.high - 8 * v.stack.length) else v.reg r

/- None where the code leaves the part of the stack that is known. -/
def exec (i : Instr) (v : View) : Option View :=
  match i with
  | .push r => v.push (v.get r)
  | .pushImm w => v.push w
  | .pop r =>
    match v.stack with
    | [] => none
    | w :: stack => if r = .rsp then none else some { v.set r w with stack }
  | .mov s t => if t = .rsp then none else some (v.set t (v.get s))
  | .movImm w t => if t = .rsp then none else some (v.set t w)
  | .fromSeg s t => if t = .rsp then none else some (v.set t ((v.seg s).setWidth 64))
  | .toSeg s t => some { v with seg := Function.update v.seg t ((v.get s).setWidth 16) }
  | .load offset base t =>
    if t = .rsp ∨ base ≠ .rsp ∨ offset % 8 ≠ 0 then none
    else (v.stack[offset / 8]?).map (v.set t)
  | .store s offset base =>
    if base ≠ .rsp ∨ offset % 8 ≠ 0 ∨ v.stack.length ≤ offset / 8 then none
    else some { v with stack := v.stack.set (offset / 8) (v.get s) }
  | .add w t =>
    if t ≠ .rsp ∨ w.toNat % 8 ≠ 0 ∨ v.stack.length < w.toNat / 8 then none
    else some { v with stack := v.stack.drop (w.toNat / 8) }
  | .and s t => if t = .rsp then none else some (v.set t (v.get s &&& v.get t))
  | .xor s t => if t = .rsp then none else some (v.set t (v.get s ^^^ v.get t))
  | .xchg a b =>
    if a = .rsp ∨ b = .rsp then none else some ((v.set a (v.reg b)).set b (v.reg a))
  | .xchgTop r =>
    match v.stack with
    | [] => none
    | w :: stack => if r = .rsp then none else some { v.set r w with stack := v.reg r :: stack }
  | .cld => some v
  | .sti => some v
  | _ => none

def run : List Instr → View → Option View
  | [], v => some v
  | i :: code, v => (v.exec i).bind (run code)

theorem run_append (first second : List Instr) (v : View) :
    v.run (first ++ second) = (v.run first).bind (run second) := by
  induction first generalizing v with
  | nil => rfl
  | cons i first ih =>
    simp only [List.cons_append, run]
    cases v.exec i with
    | none => rfl
    | some next => exact ih next

theorem run_pushes (regs : List Reg) (room : Nat) (v : View) (general : .rsp ∉ regs)
    (enough : v.room = room + regs.length) :
    v.run (regs.map .push) =
      some { v with stack := (regs.map v.reg).reverse ++ v.stack, room } := by
  induction regs generalizing v with
  | nil =>
    obtain ⟨reg, seg, stack, high, some_room⟩ := v
    simp_all [run]
  | cons r regs ih =>
    have other : r ≠ .rsp := by
      rintro rfl
      simp at general
    have some_room : v.room = room + regs.length + 1 := enough
    simp only [List.map_cons, run, exec, push, some_room, get, other, ↓reduceIte, Option.bind_some]
    rw [ih _ (fun member => general (List.mem_cons_of_mem r member)) rfl]
    simp

theorem run_pops (regs : List Reg) (value : Reg → Word) (rest : List Word) (v : View)
    (general : .rsp ∉ regs) (stack : v.stack = regs.map value ++ rest) :
    v.run (regs.map .pop) =
      some { v with reg := fun r => if r ∈ regs then value r else v.reg r, stack := rest } := by
  induction regs generalizing v with
  | nil =>
    obtain ⟨reg, seg, words, high, room⟩ := v
    simp_all [run]
  | cons r regs ih =>
    have other : r ≠ .rsp := by
      rintro rfl
      simp at general
    simp only [List.map_cons, List.cons_append] at stack
    simp only [List.map_cons, run, exec, stack, other, ↓reduceIte, Option.bind_some]
    rw [ih _ (fun member => general (List.mem_cons_of_mem r member)) rfl]
    simp only [set, List.mem_cons, Option.some.injEq, View.mk.injEq, and_self, and_true]
    funext s
    by_cases later : s ∈ regs
    · simp [later]
    · by_cases same : s = r
      · simp [same]
      · simp [later, same]

end View

namespace View

def low (v : View) : Nat := v.high - 8 * (v.stack.length + v.room)

theorem push_extent {v v' : View} {w : Word} (pushed : v.push w = some v') :
    v'.high = v.high ∧ v.low ≤ v'.low := by
  cases some_room : v.room with
  | zero => simp [push, some_room] at pushed
  | succ n =>
    simp only [push, some_room, Option.some.injEq] at pushed
    subst pushed
    simp [low, some_room]
    omega

theorem exec_extent {v v' : View} {i : Instr} (stepped : v.exec i = some v') :
    v'.high = v.high ∧ v.low ≤ v'.low := by
  cases i with
  | push r => exact push_extent stepped
  | pushImm w => exact push_extent stepped
  | pop r =>
    cases some_stack : v.stack with
    | nil => simp [exec, some_stack] at stepped
    | cons w stack =>
      simp only [exec, some_stack, Option.ite_none_left_eq_some, Option.some.injEq] at stepped
      obtain ⟨-, rfl⟩ := stepped
      simp [low, some_stack]
      omega
  | xchgTop r =>
    cases some_stack : v.stack with
    | nil => simp [exec, some_stack] at stepped
    | cons w stack =>
      simp only [exec, some_stack, Option.ite_none_left_eq_some, Option.some.injEq] at stepped
      obtain ⟨-, rfl⟩ := stepped
      simp [low, some_stack]
  | load offset base t =>
    simp only [exec, Option.ite_none_left_eq_some, Option.map_eq_some_iff] at stepped
    obtain ⟨-, w, -, rfl⟩ := stepped
    simp [low]
  | add w t =>
    simp only [exec, Option.ite_none_left_eq_some, Option.some.injEq] at stepped
    obtain ⟨-, rfl⟩ := stepped
    simp [low]
    omega
  | put s a | get a t | pushMem a | sub w t | orImm w t => simp [exec] at stepped
  | _ =>
    simp only [exec, Option.ite_none_left_eq_some, Option.some.injEq] at stepped
    first
      | subst stepped
        simp [low]
      | obtain ⟨-, rfl⟩ := stepped
        simp [low]

theorem run_extent {code : List Instr} {v v' : View} (ran : v.run code = some v') :
    v'.high = v.high ∧ v.low ≤ v'.low := by
  induction code generalizing v with
  | nil =>
    simp only [run, Option.some.injEq] at ran
    simp [ran]
  | cons i code ih =>
    obtain ⟨next, stepped, rest⟩ := Option.bind_eq_some_iff.mp ran
    have ⟨same, higher⟩ := exec_extent stepped
    have ⟨same_rest, higher_rest⟩ := ih rest
    exact ⟨same_rest.trans same, higher.trans higher_rest⟩

end View

section shows
variable {m : Machine M} {v v' : View} {status : Instr → Machine M → Word}

theorem Shows.get (shows : Shows m v) (r : Reg) : m.reg r = v.get r := by
  by_cases same : r = .rsp
  · have ends := shows.ends
    have here : v.high - 8 * v.stack.length = m.sp := by omega
    subst same
    simp [View.get, here, Machine.sp]
  · simpa [View.get, same] using shows.reg r same

theorem Shows.set (shows : Shows m v) {r : Reg} (w : Word) (other : r ≠ .rsp) :
    Shows (m.set r w) (v.set r w) where
  reg s not_sp := by
    by_cases same : s = r
    · simp [View.set, same]
    · simp [View.set, same, shows.reg s not_sp]
  seg := shows.seg
  words := by simpa [m.set_sp w other] using shows.words
  ends := by simpa [m.set_sp w other] using shows.ends
  bound := shows.bound
  room := by simpa [m.set_sp w other] using shows.room

theorem Shows.setSeg (shows : Shows m v) (s : Seg) (w : BitVec 16) :
    Shows (m.setSeg s w) { v with seg := Function.update v.seg s w } :=
  ⟨shows.reg, by simp [shows.seg], shows.words, shows.ends, shows.bound, shows.room⟩

theorem Shows.rflags (shows : Shows m v) (w : Word) : Shows { m with rflags := w } v :=
  ⟨shows.reg, shows.seg, shows.words, shows.ends, shows.bound, shows.room⟩

theorem Shows.push (shows : Shows m v) (w : Word) (pushed : v.push w = some v') :
    Shows (m.push w) v' := by
  have room := shows.room
  have ends := shows.ends
  cases some_room : v.room with
  | zero => simp [View.push, some_room] at pushed
  | succ n =>
    simp only [View.push, some_room, Option.some.injEq] at pushed
    subst pushed
    have moved : (m.push w).sp + 8 = m.sp := Machine.push_sp w (by omega)
    constructor
    · exact fun r other => (m.push_reg w other).trans (shows.reg r other)
    · exact shows.seg
    · rw [Machine.push_memory]
      refine ⟨load_store _ _ w, ?_⟩
      rw [moved]
      exact words_store w (by omega) shows.words
    · simp only [List.length_cons]
      omega
    · exact shows.bound
    · show 8 * n ≤ _
      omega

theorem Shows.drop (shows : Shows m v) {w : Word} {stack : List Word}
    (top : v.stack = w :: stack) : m.top = w ∧ Shows m.drop { v with stack } := by
  have words := shows.words
  have ends := shows.ends
  have bound := shows.bound
  have room := shows.room
  rw [top] at words ends
  simp only [List.length_cons] at ends
  have moved : m.drop.sp = m.sp + 8 := Machine.drop_sp (by omega)
  refine ⟨words.1, ?_⟩
  constructor
  · intro r other
    simpa [Machine.drop, other] using shows.reg r other
  · exact shows.seg
  · rw [moved]
    exact words.2
  · show m.drop.sp + 8 * stack.length = v.high
    omega
  · exact bound
  · show 8 * v.room ≤ m.drop.sp
    omega

theorem Shows.address (shows : Shows m v) {offset : Nat} (aligned : offset % 8 = 0)
    (within : offset / 8 < v.stack.length) :
    m.address .rsp offset = m.sp + 8 * (offset / 8) := by
  have ends := shows.ends
  have bound := shows.bound
  simp only [Machine.sp] at ends ⊢
  simp only [Machine.address, BitVec.toNat_add, BitVec.toNat_ofNat]
  omega

theorem Shows.put (shows : Shows m v) {i : Nat} (w : Word) (within : i < v.stack.length) :
    Shows { m with memory := store m.memory (m.sp + 8 * i) w }
      { v with stack := v.stack.set i w } :=
  ⟨shows.reg, shows.seg, words_set w within shows.words,
    (congrArg (fun n => m.sp + 8 * n) List.length_set).trans shows.ends, shows.bound, shows.room⟩

theorem Shows.skip (shows : Shows m v) {w : Word} (aligned : w.toNat % 8 = 0)
    (within : w.toNat / 8 ≤ v.stack.length) :
    Shows (m.set .rsp (m.reg .rsp + w)) { v with stack := v.stack.drop (w.toNat / 8) } := by
  have words := shows.words
  have ends := shows.ends
  have bound := shows.bound
  have room := shows.room
  have moved : (m.set .rsp (m.reg .rsp + w)).sp = m.sp + 8 * (w.toNat / 8) := by
    simp only [Machine.sp] at ends ⊢
    simp [BitVec.toNat_add]
    omega
  constructor
  · intro r other
    simpa [other] using shows.reg r other
  · exact shows.seg
  · rw [moved]
    rw [← List.take_append_drop (w.toNat / 8) v.stack, words_append, List.length_take,
      min_eq_left within] at words
    exact words.2
  · show (m.set .rsp (m.reg .rsp + w)).sp + 8 * (v.stack.drop (w.toNat / 8)).length = v.high
    rw [moved, List.length_drop]
    omega
  · exact bound
  · show 8 * v.room ≤ (m.set .rsp (m.reg .rsp + w)).sp
    omega

/- One instruction on the list is the instruction on the memory. -/
theorem Shows.exec (shows : Shows m v) {i : Instr} (stepped : v.exec i = some v') :
    Shows (exec status i m) v' := by
  cases i with
  | push r => exact shows.push _ (shows.get r ▸ stepped)
  | pushImm w => exact shows.push w stepped
  | pop r =>
    cases some_stack : v.stack with
    | nil => simp [View.exec, some_stack] at stepped
    | cons w stack =>
      obtain ⟨top, dropped⟩ := shows.drop some_stack
      simp only [View.exec, some_stack, Option.ite_none_left_eq_some, Option.some.injEq] at stepped
      obtain ⟨other, rfl⟩ := stepped
      exact top ▸ dropped.set m.top other
  | mov s t =>
    simp only [View.exec, Option.ite_none_left_eq_some, Option.some.injEq] at stepped
    obtain ⟨other, rfl⟩ := stepped
    exact shows.get s ▸ shows.set (m.reg s) other
  | movImm w t =>
    simp only [View.exec, Option.ite_none_left_eq_some, Option.some.injEq] at stepped
    obtain ⟨other, rfl⟩ := stepped
    exact shows.set w other
  | fromSeg s t =>
    simp only [View.exec, Option.ite_none_left_eq_some, Option.some.injEq] at stepped
    obtain ⟨other, rfl⟩ := stepped
    exact shows.seg ▸ shows.set _ other
  | toSeg s t =>
    simp only [View.exec, Option.some.injEq] at stepped
    subst stepped
    exact shows.get s ▸ shows.setSeg t _
  | load offset base t =>
    simp only [View.exec, Option.ite_none_left_eq_some, not_or, not_not, Option.map_eq_some_iff]
      at stepped
    obtain ⟨⟨other, rfl, aligned⟩, w, got, rfl⟩ := stepped
    have within : offset / 8 < v.stack.length := (List.getElem?_eq_some_iff.mp got).1
    have here := words_get shows.words got
    rw [← shows.address aligned within] at here
    exact here ▸ shows.set _ other
  | store s offset base =>
    simp only [View.exec, Option.ite_none_left_eq_some, not_or, not_not, not_le,
      Option.some.injEq] at stepped
    obtain ⟨⟨rfl, aligned, within⟩, rfl⟩ := stepped
    have here := shows.put (m.reg s) within
    rw [← shows.address aligned within] at here
    exact shows.get s ▸ here
  | add w t =>
    simp only [View.exec, Option.ite_none_left_eq_some, not_or, not_not, not_lt,
      Option.some.injEq] at stepped
    obtain ⟨⟨rfl, aligned, within⟩, rfl⟩ := stepped
    exact (shows.skip aligned within).rflags _
  | and s t | xor s t =>
    simp only [View.exec, Option.ite_none_left_eq_some, Option.some.injEq] at stepped
    obtain ⟨other, rfl⟩ := stepped
    exact shows.get s ▸ shows.get t ▸ (shows.set _ other).rflags _
  | xchg a b =>
    simp only [View.exec, Option.ite_none_left_eq_some, not_or, Option.some.injEq] at stepped
    obtain ⟨⟨first, second⟩, rfl⟩ := stepped
    rw [← shows.reg a first, ← shows.reg b second]
    exact (shows.set _ first).set _ second
  | xchgTop r =>
    cases some_stack : v.stack with
    | nil => simp [View.exec, some_stack] at stepped
    | cons w stack =>
      simp only [View.exec, some_stack, Option.ite_none_left_eq_some, Option.some.injEq] at stepped
      obtain ⟨other, rfl⟩ := stepped
      have top : m.top = w := (shows.drop some_stack).1
      have inside : 0 < v.stack.length := by simp [some_stack]
      have swapped := (shows.put (m.reg r) inside).set w other
      rw [some_stack, List.set_cons_zero, shows.reg r other] at swapped
      rw [StackMachine.exec, top, shows.reg r other]
      exact swapped
  | cld | sti =>
    simp only [View.exec, Option.some.injEq] at stepped
    exact stepped ▸ shows.rflags _
  | put s a | get a t | pushMem a | sub w t | orImm w t => simp [View.exec] at stepped

/- And a run of code on the list is its run on the memory. -/
theorem Shows.run (code : List Instr) (shows : Shows m v) (ran : v.run code = some v') :
    Shows (run status code m) v' := by
  induction code generalizing m v with
  | nil =>
    simp only [View.run, Option.some.injEq] at ran
    exact ran ▸ shows
  | cons i code ih =>
    obtain ⟨next, stepped, rest⟩ := Option.bind_eq_some_iff.mp ran
    exact ih (shows.exec stepped) rest

theorem Shows.reserve (shows : Shows m v) {n : Nat} (room : n ≤ v.room) (status : Word) :
    ∃ ws : List Word, ws.length = n ∧
      Shows { m.set .rsp (m.reg .rsp - BitVec.ofNat 64 (8 * n)) with rflags := status }
        { v with stack := ws ++ v.stack, room := v.room - n } := by
  have words := shows.words
  have ends := shows.ends
  have bound := shows.bound
  have space := shows.room
  have moved : (m.set .rsp (m.reg .rsp - BitVec.ofNat 64 (8 * n))).sp + 8 * n = m.sp := by
    simp only [Machine.sp] at ends space ⊢
    simp [BitVec.toNat_sub]
    omega
  obtain ⟨ws, length, unknown⟩ :=
    exists_words m.memory (m.set .rsp (m.reg .rsp - BitVec.ofNat 64 (8 * n))).sp n
  refine ⟨ws, length, ?_⟩
  apply Shows.rflags
  constructor
  · intro r other
    simpa [other] using shows.reg r other
  · exact shows.seg
  · apply words_append.mpr
    rw [length, moved]
    exact ⟨unknown, words⟩
  · simp only [List.length_append, length]
    omega
  · exact bound
  · show 8 * (v.room - n) ≤ _
    omega

theorem Shows.lower (shows : Shows m v) {ws rest : List Word} (stack : v.stack = ws ++ rest) :
    Shows m { v with stack := ws, high := v.high - 8 * rest.length } := by
  have words := shows.words
  have ends := shows.ends
  have bound := shows.bound
  rw [stack, words_append] at words
  rw [stack, List.length_append] at ends
  refine ⟨fun r other => shows.reg r other, shows.seg, words.1, ?_, ?_, shows.room⟩
  · show m.sp + 8 * ws.length = v.high - 8 * rest.length
    omega
  · show v.high - 8 * rest.length < 2 ^ 64
    omega

theorem Shows.raise (shows : Shows m v) {ws : List Word} (words : Words m.memory v.high ws)
    (bound : v.high + 8 * ws.length < 2 ^ 64) :
    Shows m { v with stack := v.stack ++ ws, high := v.high + 8 * ws.length } := by
  have ends := shows.ends
  refine ⟨fun r other => shows.reg r other, shows.seg, ?_, ?_, bound, shows.room⟩
  · exact words_append.mpr ⟨shows.words, ends ▸ words⟩
  · simp only [List.length_append]
    omega

/- Code stores in the part of the stack that is known and in the room below it only. -/
theorem Shows.push_outside (shows : Shows m v) (w : Word) (pushed : v.push w = some v') {a : Nat}
    (outside : a + 8 ≤ v.low ∨ v.high ≤ a) : load (m.push w).memory a = load m.memory a := by
  have room := shows.room
  have ends := shows.ends
  cases some_room : v.room with
  | zero => simp [View.push, some_room] at pushed
  | succ n =>
    have moved : (m.push w).sp + 8 = m.sp := Machine.push_sp w (by omega)
    rw [Machine.push_memory]
    apply load_store_apart
    rw [View.low] at outside
    omega

theorem Shows.put_outside (shows : Shows m v) {i : Nat} (w : Word) (within : i < v.stack.length)
    {a : Nat} (outside : a + 8 ≤ v.low ∨ v.high ≤ a) :
    load (store m.memory (m.sp + 8 * i) w) a = load m.memory a := by
  have ends := shows.ends
  apply load_store_apart
  rw [View.low] at outside
  omega

theorem Shows.exec_outside (shows : Shows m v) {i : Instr} (stepped : v.exec i = some v') {a : Nat}
    (outside : a + 8 ≤ v.low ∨ v.high ≤ a) :
    load (StackMachine.exec status i m).memory a = load m.memory a := by
  cases i with
  | push r =>
    have here := shows.push_outside (v.get r) stepped outside
    rwa [← shows.get r] at here
  | pushImm w => exact shows.push_outside w stepped outside
  | store s offset base =>
    simp only [View.exec, Option.ite_none_left_eq_some, not_or, not_not, not_le] at stepped
    obtain ⟨⟨rfl, aligned, within⟩, -⟩ := stepped
    have here := shows.put_outside (m.reg s) within outside
    rwa [← shows.address aligned within] at here
  | xchgTop r =>
    have inside : 0 < v.stack.length := by
      cases some_stack : v.stack with
      | nil => simp [View.exec, some_stack] at stepped
      | cons w stack => simp
    exact shows.put_outside (m.reg r) inside outside
  | put s a | pushMem a => simp [View.exec] at stepped
  | _ => rfl

theorem Shows.run_outside (code : List Instr) (shows : Shows m v) (ran : v.run code = some v')
    {a : Nat} (outside : a + 8 ≤ v.low ∨ v.high ≤ a) :
    load (StackMachine.run status code m).memory a = load m.memory a := by
  induction code generalizing m v with
  | nil => rfl
  | cons i code ih =>
    obtain ⟨next, stepped, rest⟩ := Option.bind_eq_some_iff.mp ran
    have ⟨same, higher⟩ := View.exec_extent stepped
    rw [run_cons, ih (shows.exec stepped) rest (by omega)]
    exact shows.exec_outside stepped outside

end shows

end StackMachine

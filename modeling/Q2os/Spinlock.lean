import Mathlib.Algebra.Group.Int.Defs
import Mathlib.Algebra.Group.Nat.Defs
import Mathlib.Data.Fintype.Card
import Q2os.Run

/- spin_lock, spin_trylock and spin_unlock on any number of CPUs, one atomic instruction a step.
   The lock word is a signed counter that every waiting CPU has taken one from. -/
namespace Spinlock
open Run

/- Where a CPU is: at the label 1 of spin_lock, in the loop at its label 2, or past label 3 or a
   successful spin_trylock. -/
inductive Pc where
  | outside
  | take
  | pause
  | holder
  deriving DecidableEq

structure System (n : Nat) where
  lock : BitVec 64
  pc : Fin n → Pc

inductive Event (n : Nat) where
  | spinLock (i : Fin n)
  | decq (i : Fin n)
  | cmpq (i : Fin n)
  | xchgq (i : Fin n)
  | spinUnlock (i : Fin n)

variable {n : Nat}

def spinInit : System n := ⟨1, fun _ => .outside⟩

def goto (s : System n) (i : Fin n) (p : Pc) : System n := { s with pc := Function.update s.pc i p }

def next (s : System n) : Event n → Option (System n)
  | .spinLock i => if s.pc i = .outside then some (goto s i .take) else none
  | .decq i =>
    if s.pc i = .take then
      let value := s.lock - 1
      some (goto { s with lock := value } i (if value.toInt < 0 then .pause else .holder))
    else none
  | .cmpq i =>
    if s.pc i = .pause then some (goto s i (if s.lock.toInt ≤ 0 then .pause else .take)) else none
  | .xchgq i =>
    if s.pc i = .outside then
      some (goto { s with lock := 0 } i (if s.lock = 0 then .outside else .holder))
    else none
  | .spinUnlock i =>
    if s.pc i = .holder then some (goto { s with lock := 1 } i .outside) else none

def Step (s : System n) (e : Event n) (t : System n) : Prop := next s e = some t

def Exclusive (s : System n) : Prop := ∀ i j, s.pc i = .holder → s.pc j = .holder → i = j

/- spin_trylock does not run its xchg on a negative lock word. -/
def NotNegative (s : System n) : Event n → Prop
  | .xchgq _ => 0 ≤ s.lock.toInt
  | _ => True

/- The CPUs that took one from the lock word without getting the lock, and have not seen it
   given back. -/
def waiting (s : System n) : Finset (Fin n) := Finset.univ.filter fun i => s.pc i = .pause

/-- The lock is free and its word 1, or one CPU holds it and the word is at most 0 and not below
the number of the waiting CPUs. -/
inductive Guarding (s : System n) : Prop where
  | free (none : ∀ i, s.pc i ≠ .holder) (one : s.lock = 1)
  | held (i : Fin n) (holds : s.pc i = .holder) (only : ∀ j, s.pc j = .holder → j = i)
      (high : s.lock.toInt ≤ 0) (low : -(waiting s).card ≤ s.lock.toInt)

theorem pc_goto (s : System n) (i j : Fin n) (p : Pc) :
    (goto s i p).pc j = if j = i then p else s.pc j := by
  unfold goto
  by_cases here : j = i
  · subst here
    simp
  · simp [here]

theorem mem_waiting (s : System n) (i : Fin n) : i ∈ waiting s ↔ s.pc i = .pause := by
  simp [waiting]

theorem waiting_few {s : System n} {i : Fin n} (holds : s.pc i = .holder) :
    (waiting s).card + 1 ≤ n := by
  have absent : i ∉ waiting s := by
    rw [mem_waiting, holds]
    decide
  have grown := Finset.card_le_univ (insert i (waiting s))
  rw [Finset.card_insert_of_notMem absent, Fintype.card_fin] at grown
  exact grown

theorem waiting_kept {s t : System n} {i : Fin n} (other : ∀ j, j ≠ i → t.pc j = s.pc j)
    (before : s.pc i ≠ .pause) : (waiting s).card ≤ (waiting t).card := by
  apply Finset.card_le_card
  intro j member
  rw [mem_waiting] at *
  have different : j ≠ i := by
    rintro rfl
    exact before member
  rw [other j different]
  exact member

theorem waiting_grows {s t : System n} {i : Fin n} (other : ∀ j, j ≠ i → t.pc j = s.pc j)
    (before : s.pc i ≠ .pause) (after : t.pc i = .pause) :
    (waiting s).card + 1 ≤ (waiting t).card := by
  have absent : i ∉ waiting s := by
    rw [mem_waiting]
    exact before
  rw [← Finset.card_insert_of_notMem absent]
  apply Finset.card_le_card
  intro j member
  rw [mem_waiting]
  rcases Finset.mem_insert.mp member with rfl | old
  · exact after
  · rw [mem_waiting] at old
    have different : j ≠ i := by
      rintro rfl
      exact before old
    rw [other j different]
    exact old

theorem dec_value {x : BitVec 64} (room : -2 ^ 63 < x.toInt) : (x - 1).toInt = x.toInt - 1 := by
  have bound := x.isLt
  have one : (1 : BitVec 64).toNat = 1 := rfl
  rw [BitVec.toInt_eq_toNat_cond] at room ⊢
  rw [BitVec.toInt_eq_toNat_cond, BitVec.toNat_sub, one]
  omega

theorem exclusive_of_guarding {s : System n} (guarding : Guarding s) : Exclusive s := by
  intro i j first second
  cases guarding with
  | free none _ => exact absurd first (none i)
  | held k _ only _ _ => exact (only i first).trans (only j second).symm

theorem free_word {s : System n} (one : s.lock = 1) : s.lock.toInt = 1 := by
  rw [one]
  decide

theorem holds_goto {s : System n} {i j : Fin n} {p : Pc} (away : p ≠ .holder)
    (holds : (goto s i p).pc j = .holder) : j ≠ i ∧ s.pc j = .holder := by
  rw [pc_goto] at holds
  split at holds
  · exact absurd holds away
  · next other => exact ⟨other, holds⟩

theorem call_guarding {s : System n} {i : Fin n} (guarding : Guarding s) (here : s.pc i = .outside) :
    Guarding (goto s i .take) := by
  cases guarding with
  | free none one =>
    refine .free (fun j holds => ?_) one
    exact none j (holds_goto (by decide) holds).2
  | held k holds only high low =>
    have kept := waiting_kept (fun j other => by rw [pc_goto, if_neg other])
      (by rw [here]; decide) (s := s) (t := goto s i .take)
    refine .held k ?_ (fun j again => only j (holds_goto (by decide) again).2) high ?_
    · rw [pc_goto, if_neg (by rintro rfl; rw [here] at holds; cases holds)]
      exact holds
    · have same : (goto s i .take).lock = s.lock := rfl
      rw [same]
      omega

theorem dec_guarding {s : System n} {i : Fin n} (few : n ≤ 2 ^ 63) (guarding : Guarding s)
    (here : s.pc i = .take) :
    Guarding (goto { s with lock := s.lock - 1 } i
      (if (s.lock - 1).toInt < 0 then .pause else .holder)) := by
  cases guarding with
  | free none one =>
    have zero : (s.lock - 1).toInt = 0 := by
      rw [one]
      decide
    rw [zero, if_neg (by decide)]
    refine .held i ?_ (fun j holds => ?_) (Int.le_of_eq zero) ?_
    · rw [pc_goto, if_pos rfl]
    · rw [pc_goto] at holds
      split at holds
      · next same => exact same
      · exact absurd holds (none j)
    · have word : (goto { s with lock := s.lock - 1 } i .holder).lock.toInt = 0 := zero
      rw [word]
      omega
  | held k holds only high low =>
    have count := waiting_few holds
    have value : (s.lock - 1).toInt = s.lock.toInt - 1 := dec_value (by omega)
    rw [if_pos (by omega)]
    have grown := waiting_grows (fun j other => by rw [pc_goto, if_neg other]) (by rw [here]; decide)
      (by rw [pc_goto, if_pos rfl]) (s := s) (t := goto { s with lock := s.lock - 1 } i .pause) (i := i)
    have word : (goto { s with lock := s.lock - 1 } i .pause).lock.toInt = s.lock.toInt - 1 := value
    refine .held k ?_ (fun j again => only j (holds_goto (by decide) again).2) ?_ ?_
    · rw [pc_goto, if_neg (by rintro rfl; rw [here] at holds; cases holds)]
      exact holds
    · omega
    · omega

theorem cmp_guarding {s : System n} {i : Fin n} (guarding : Guarding s) (here : s.pc i = .pause) :
    Guarding (goto s i (if s.lock.toInt ≤ 0 then .pause else .take)) := by
  by_cases low : s.lock.toInt ≤ 0
  · have same : goto s i .pause = s := by
      unfold goto
      rw [← here, Function.update_eq_self]
    rw [if_pos low, same]
    exact guarding
  · rw [if_neg low]
    cases guarding with
    | free none one => exact .free (fun j holds => none j (holds_goto (by decide) holds).2) one
    | held k holds only high _ => exact absurd high low

theorem xchg_guarding {s : System n} {i : Fin n} (guarding : Guarding s)
    (here : s.pc i = .outside) (notNegative : 0 ≤ s.lock.toInt) :
    Guarding (goto { s with lock := 0 } i (if s.lock = 0 then .outside else .holder)) := by
  cases guarding with
  | free none one =>
    rw [if_neg (by rw [one]; decide)]
    refine .held i ?_ (fun j holds => ?_) (Int.le_refl 0) ?_
    · rw [pc_goto, if_pos rfl]
    · rw [pc_goto] at holds
      split at holds
      · next same => exact same
      · exact absurd holds (none j)
    · exact Int.neg_nonpos_of_nonneg (Int.natCast_nonneg _)
  | held k holds only high low =>
    have zero : s.lock = 0 := BitVec.eq_of_toInt_eq (Int.le_antisymm high notNegative)
    rw [if_pos zero]
    refine .held k ?_ (fun j again => only j (holds_goto (by decide) again).2) (Int.le_refl 0) ?_
    · rw [pc_goto, if_neg (by rintro rfl; rw [here] at holds; cases holds)]
      exact holds
    · exact Int.neg_nonpos_of_nonneg (Int.natCast_nonneg _)

theorem unlock_guarding {s : System n} {i : Fin n} (guarding : Guarding s)
    (here : s.pc i = .holder) : Guarding (goto { s with lock := 1 } i .outside) := by
  cases guarding with
  | free none _ => exact absurd here (none i)
  | held k holds only _ _ =>
    refine .free (fun j again => ?_) rfl
    obtain ⟨other, held⟩ := holds_goto (by decide) again
    exact other ((only j held).trans (only i here).symm)

theorem step_guarding {s t : System n} {e : Event n} (few : n ≤ 2 ^ 63) (guarding : Guarding s)
    (step : Step s e t) (allowed : NotNegative s e) : Guarding t := by
  unfold Step next at step
  cases e with
  | spinLock i =>
    obtain ⟨here, made⟩ := Option.ite_none_right_eq_some.mp step
    cases made
    exact call_guarding guarding here
  | decq i =>
    obtain ⟨here, made⟩ := Option.ite_none_right_eq_some.mp step
    cases made
    exact dec_guarding few guarding here
  | cmpq i =>
    obtain ⟨here, made⟩ := Option.ite_none_right_eq_some.mp step
    cases made
    exact cmp_guarding guarding here
  | xchgq i =>
    obtain ⟨here, made⟩ := Option.ite_none_right_eq_some.mp step
    cases made
    exact xchg_guarding guarding here allowed
  | spinUnlock i =>
    obtain ⟨here, made⟩ := Option.ite_none_right_eq_some.mp step
    cases made
    exact unlock_guarding guarding here

theorem negative_twice {s t : System n} {e : Event n} (guarding : Guarding s) (step : Step s e t)
    (exclusive : Exclusive t) : NotNegative s e := by
  cases e with
  | xchgq i =>
    unfold Step next at step
    obtain ⟨here, made⟩ := Option.ite_none_right_eq_some.mp step
    by_contra negative
    have nonzero : s.lock ≠ 0 := by
      intro zero
      have word : (0 : Int) ≤ s.lock.toInt := by
        rw [zero]
        decide
      exact negative word
    rw [if_neg nonzero] at made
    cases guarding with
    | free none one =>
      have word := free_word one
      unfold NotNegative at negative
      omega
    | held k holds _ _ _ =>
      have other : k ≠ i := by
        rintro rfl
        rw [here] at holds
        cases holds
      cases made
      refine other (exclusive k i ?_ ?_)
      · rw [pc_goto, if_neg other]
        exact holds
      · rw [pc_goto, if_pos rfl]
  | spinLock i => exact trivial
  | decq i => exact trivial
  | cmpq i => exact trivial
  | spinUnlock i => exact trivial

/-- A run never has two holders exactly if no spin_trylock meets a negative lock word. -/
theorem one_holder_iff (few : n ≤ 2 ^ 63) (es : List (Event n)) (t : System n) :
    Steps (Meeting (fun _ _ t => Exclusive t) Step) spinInit es t ↔
      Steps (Guarded NotNegative Step) spinInit es t := by
  refine steps_meeting_iff ?_ ?_ (Guarding.free (fun _ holds => by cases holds) rfl)
  · intro s e t guarding step
    constructor
    · exact negative_twice guarding step
    · intro allowed
      exact exclusive_of_guarding (step_guarding few guarding step allowed)
  · intro s e t guarding step exclusive
    exact step_guarding few guarding step (negative_twice guarding step exclusive)

theorem one_holder_two_cpus : ∃ t : System 2, Steps (Meeting (fun _ _ t => Exclusive t) Step) spinInit
    [.spinLock 0, .decq 0, .spinUnlock 0, .xchgq 1] t := by
  exact ⟨_, (one_holder_iff (by decide) _ _).mpr <|
    .cons ⟨rfl, trivial⟩ <| .cons ⟨rfl, trivial⟩ <| .cons ⟨rfl, trivial⟩ <|
    .cons ⟨rfl, by unfold NotNegative; decide⟩ <| .nil _⟩

/- While CPU 0 holds the lock and CPU 1 waits, spin_trylock succeeds on CPU 2. -/
theorem two_holders : ∃ t : System 3, Steps Step spinInit
    [.spinLock 0, .decq 0, .spinLock 1, .decq 1, .xchgq 2] t ∧ ¬ Exclusive t := by
  refine ⟨_, steps_of_exec rfl, ?_⟩
  intro exclusive
  have same := exclusive 0 2 (by decide) (by decide)
  cases same

end Spinlock

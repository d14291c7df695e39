import Mathlib.Algebra.Group.Nat.Defs
import Mathlib.Logic.Function.Basic
import Q2os.Softirq

/- do_softirq with nothing raised while it runs: which actions it calls, in which order, and what
   it leaves pending. -/
namespace Softirq
open Run

/- One entry of softirq_vector. An action is the address of a function, 0 where there is none. -/
structure Entry where
  action : Nat
  data : Nat

def softirqInit : Nat → Entry := fun _ => ⟨0, 0⟩

def registerSoftirq (vector : Nat → Entry) (nr action data : Nat) : Nat → Entry :=
  Function.update vector nr ⟨action, data⟩

def unregisterSoftirq (vector : Nat → Entry) (nr : Nat) : Nat → Entry :=
  Function.update vector nr ⟨0, 0⟩

/- A call through NULL is no step. -/
def Callable (vector : Nat → Entry) : Pc → Prop
  | .call i => (vector i).action ≠ 0
  | _ => True

def Quiet (vector : Nat → Entry) (s : System) (_ : Unit) (t : System) : Prop :=
  cpu s = some t ∧ Callable vector s.pc

def Reaches (vector : Nat → Entry) (s t : System) : Prop := ∃ es, Steps (Quiet vector) s es t

/- The vectors whose bit is set, in increasing order. -/
def vectors (pending : BitVec 64) : List Nat := (List.range 64).filter fun i => pending.getLsbD i

/-- do_softirq returns with nothing pending and has called the action of each pending vector
once, in increasing order, and no other. -/
def ServedOnce (vector : Nat → Entry) (pending : BitVec 64) : Prop :=
  ∃ t, Reaches vector (start pending) t ∧ t.pc = .done ∧ t.status = 0 ∧
    t.called.reverse = vectors pending

def Registered (vector : Nat → Entry) (pending : BitVec 64) : Prop :=
  ∀ i < 64, pending.getLsbD i = true → (vector i).action ≠ 0

def visit (i : Nat) (s : System) : System :=
  if s.status &&& mask i ≠ 0 then
    { s with
      status := s.status &&& ~~~mask i
      owed := s.owed &&& ~~~(1#64 <<< i)
      called := i :: s.called }
  else s

def visits : Nat → System → System
  | 0, s => s
  | n + 1, s => visit n (visits n s)

theorem reaches_refl (vector : Nat → Entry) (s : System) : Reaches vector s s := ⟨[], .nil s⟩

theorem reaches_trans {vector : Nat → Entry} {s m t : System} (first : Reaches vector s m)
    (rest : Reaches vector m t) : Reaches vector s t := by
  obtain ⟨es, first⟩ := first
  obtain ⟨fs, rest⟩ := rest
  exact ⟨es ++ fs, steps_append first rest⟩

theorem reaches_step {vector : Nat → Entry} {s m t : System} (first : cpu s = some m)
    (callable : Callable vector s.pc) (rest : Reaches vector m t) : Reaches vector s t :=
  reaches_trans ⟨[()], steps_single ⟨first, callable⟩⟩ rest

theorem quiet_one (vector : Nat → Entry) (s : System) (e f : Unit) (t u : System)
    (left : Quiet vector s e t) (right : Quiet vector s f u) : t = u :=
  Option.some.inj (left.1.symm.trans right.1)

theorem reaches_through {vector : Nat → Entry} {s m t : System} (part : Reaches vector s m)
    (whole : Reaches vector s t) (done : t.pc = .done) : Reaches vector m t := by
  obtain ⟨es, part⟩ := part
  obtain ⟨fs, whole⟩ := whole
  refine steps_through (quiet_one vector) part whole ?_
  rintro e u ⟨next, -⟩
  unfold cpu at next
  rw [done] at next
  cases next

theorem meets_low {i v : Nat} (low : i < 31) (small : v < 64) : Meets i v ↔ v = i := by
  have all : ∀ i < 31, ∀ v < 64, Meets i v ↔ v = i := by decide +kernel
  exact all i low v small

theorem meets_sign {v : Nat} (small : v < 64) : Meets 31 v ↔ 31 ≤ v := by
  have all : ∀ v < 64, Meets 31 v ↔ 31 ≤ v := by decide +kernel
  exact all v small

theorem visit_misses {i : Nat} {s : System} (misses : s.status &&& mask i = 0) :
    visit i s = s := by
  unfold visit
  rw [if_neg (not_not_intro misses)]

theorem visit_meets {i : Nat} {s : System} (meets : s.status &&& mask i ≠ 0) :
    visit i s = { s with
      status := s.status &&& ~~~mask i
      owed := s.owed &&& ~~~(1#64 <<< i)
      called := i :: s.called } := by
  unfold visit
  rw [if_pos meets]

theorem visit_reaches {vector : Nat → Entry} {i : Nat} {s : System}
    (callable : s.status &&& mask i ≠ 0 → (vector i).action ≠ 0) :
    Reaches vector { s with pc := .ifTest i } { visit i s with pc := forNext i } := by
  by_cases meets : s.status &&& mask i ≠ 0
  · rw [visit_meets meets]
    have tested : cpu { s with pc := .ifTest i } = some { s with pc := .call i } := by
      unfold cpu
      simp only [if_pos meets]
    refine reaches_step tested trivial ?_
    refine reaches_step rfl (callable meets) ?_
    refine reaches_step rfl trivial ?_
    exact reaches_step rfl trivial (reaches_refl _ _)
  · rw [visit_misses (not_not.mp meets)]
    have tested : cpu { s with pc := .ifTest i } = some { s with pc := forNext i } := by
      unfold cpu
      simp only [if_neg meets]
    exact reaches_step tested trivial (reaches_refl _ _)

theorem visits_reaches {vector : Nat → Entry} {s : System} {n : Nat} (small : n < 64)
    (callable : ∀ i < n, (visits i s).status &&& mask i ≠ 0 → (vector i).action ≠ 0) :
    Reaches vector { s with pc := .ifTest 0 } { visits n s with pc := .ifTest n } := by
  induction n with
  | zero => exact reaches_refl _ _
  | succ n ih =>
    have before := ih (by omega) fun i below => callable i (by omega)
    have here := visit_reaches (callable n (by omega))
    have more : forNext n = .ifTest (n + 1) := if_pos small
    rw [more] at here
    exact reaches_trans before here

theorem pass_reaches {vector : Nat → Entry} {s : System}
    (callable : ∀ i < 64, (visits i s).status &&& mask i ≠ 0 → (vector i).action ≠ 0) :
    Reaches vector { s with pc := .ifTest 0 } { visits 64 s with pc := .whileTest } := by
  have before := visits_reaches (by decide : 63 < 64) fun i below => callable i (by omega)
  exact reaches_trans before (visit_reaches (callable 63 (by decide)))

/- What one pass calls: index by index below 31, where a mask has one bit. The mask of index 31
has all bits from 31 on. -/

theorem low_status {s : System} {n v : Nat} (low : n ≤ 31) (small : v < 64) :
    (visits n s).status.getLsbD v = true ↔ s.status.getLsbD v = true ∧ n ≤ v := by
  induction n with
  | zero => exact ⟨fun set => ⟨set, Nat.zero_le v⟩, And.left⟩
  | succ n ih =>
    have before := ih (by omega)
    change (visit n (visits n s)).status.getLsbD v = true ↔ _
    by_cases meets : (visits n s).status &&& mask n ≠ 0
    · rw [visit_meets meets, bit_cleared small, before, meets_low (by omega) small]
      constructor
      · rintro ⟨⟨set, from_n⟩, other⟩
        exact ⟨set, by omega⟩
      · rintro ⟨set, beyond⟩
        exact ⟨⟨set, by omega⟩, by omega⟩
    · rw [visit_misses (not_not.mp meets), before]
      have other : s.status.getLsbD v = true → n ≤ v → v ≠ n := by
        rintro set from_n rfl
        exact meets (mask_and_ne_zero.mpr
          ⟨v, small, before.mpr ⟨set, from_n⟩, (meets_low (by omega) small).mpr rfl⟩)
      constructor
      · rintro ⟨set, from_n⟩
        have := other set from_n
        exact ⟨set, by omega⟩
      · rintro ⟨set, beyond⟩
        exact ⟨set, by omega⟩

theorem low_meets {s : System} {n : Nat} (low : n < 31) :
    (visits n s).status &&& mask n ≠ 0 ↔ s.status.getLsbD n = true := by
  rw [mask_and_ne_zero]
  constructor
  · rintro ⟨v, small, set, meets⟩
    have same := (meets_low low small).mp meets
    subst same
    exact ((low_status (by omega) small).mp set).1
  · intro set
    exact ⟨n, by omega, (low_status (by omega) (by omega)).mpr ⟨set, Nat.le_refl n⟩,
      (meets_low low (by omega)).mpr rfl⟩

theorem low_called {s : System} {n : Nat} (low : n ≤ 31) : (visits n s).called =
    ((List.range n).filter fun i => s.status.getLsbD i).reverse ++ s.called := by
  induction n with
  | zero => rfl
  | succ n ih =>
    have before := ih (by omega)
    change (visit n (visits n s)).called = _
    rw [List.range_succ, List.filter_append, List.reverse_append, List.append_assoc, ← before]
    by_cases set : s.status.getLsbD n = true
    · rw [visit_meets ((low_meets (by omega)).mpr set), List.filter_cons_of_pos set]
      rfl
    · have misses := mt (low_meets (by omega)).mp set
      rw [visit_misses (not_not.mp misses), List.filter_cons_of_neg set]
      rfl

theorem sign_meets {s : System} : (visits 31 s).status &&& mask 31 ≠ 0 ↔
    ∃ v < 64, 31 ≤ v ∧ s.status.getLsbD v = true := by
  rw [mask_and_ne_zero]
  constructor
  · rintro ⟨v, small, set, -⟩
    obtain ⟨set, beyond⟩ := (low_status (Nat.le_refl 31) small).mp set
    exact ⟨v, small, beyond, set⟩
  · rintro ⟨v, small, beyond, set⟩
    exact ⟨v, small, (low_status (Nat.le_refl 31) small).mpr ⟨set, beyond⟩,
      (meets_sign small).mpr beyond⟩

/- Index 31 leaves nothing for the indices after it. -/
theorem sign_status (s : System) : (visits 32 s).status = 0 := by
  change (visit 31 (visits 31 s)).status = 0
  by_cases meets : (visits 31 s).status &&& mask 31 ≠ 0
  · rw [visit_meets meets]
    refine BitVec.eq_of_getLsbD_eq fun v small => ?_
    have zero : (0 : BitVec 64).getLsbD v = false := BitVec.getLsbD_zero
    rw [zero, ← Bool.not_eq_true, bit_cleared small, low_status (Nat.le_refl 31) small,
      meets_sign small]
    rintro ⟨⟨-, beyond⟩, before⟩
    exact before beyond
  · rw [visit_misses (not_not.mp meets)]
    refine BitVec.eq_of_getLsbD_eq fun v small => ?_
    have zero : (0 : BitVec 64).getLsbD v = false := BitVec.getLsbD_zero
    rw [zero, ← Bool.not_eq_true, low_status (Nat.le_refl 31) small]
    rintro ⟨set, beyond⟩
    exact meets (sign_meets.mpr ⟨v, small, beyond, set⟩)

theorem high_visits {s : System} {n : Nat} (high : 32 ≤ n) : visits n s = visits 32 s := by
  induction high with
  | refl => rfl
  | @step n _ ih =>
    change visit n (visits n s) = _
    rw [ih]
    refine visit_misses ?_
    rw [sign_status]
    exact BitVec.zero_and

theorem beyond_iff {pending : BitVec 64} :
    pending.toNat < 2 ^ 32 ↔ ∀ v < 64, 32 ≤ v → pending.getLsbD v ≠ true := by
  constructor
  · intro below v small high set
    rw [BitVec.getLsbD_eq_getElem small, BitVec.getElem_eq_testBit_toNat] at set
    have big := Nat.ge_two_pow_of_testBit set
    have grows := Nat.pow_le_pow_right (by decide : 0 < 2) high
    omega
  · intro none
    refine Nat.lt_pow_two_of_testBit _ fun v high => ?_
    rw [← Bool.not_eq_true]
    intro set
    by_cases small : v < 64
    · refine none v small high ?_
      rw [BitVec.getLsbD_eq_getElem small, BitVec.getElem_eq_testBit_toNat]
      exact set
    · have big := Nat.ge_two_pow_of_testBit set
      have grows := Nat.pow_le_pow_right (by decide : 0 < 2) (Nat.le_of_not_lt small)
      have word := pending.isLt
      omega

/- The calls of a run that returns: the low vectors, and index 31 for all those from 31 on. -/

theorem return_reaches {vector : Nat → Entry} {s : System} (here : s.pc = .whileTest)
    (empty : s.status = 0) : Reaches vector s { s with pc := .done } := by
  have tested : cpu s = some { s with pc := .done } := by
    unfold cpu
    rw [here]
    simp only [if_pos empty]
  exact reaches_step tested (by rw [here]; trivial) (reaches_refl _ _)

theorem enter_reaches {vector : Nat → Entry} {s : System} (here : s.pc = .whileTest)
    (nonzero : s.status ≠ 0) : Reaches vector s { s with pc := .ifTest 0 } := by
  have tested : cpu s = some { s with pc := .ifTest 0 } := by
    unfold cpu
    rw [here]
    simp only [if_neg nonzero]
  exact reaches_step tested (by rw [here]; trivial) (reaches_refl _ _)

theorem reaches_done {vector : Nat → Entry} {s t : System} (done : s.pc = .done)
    (reached : Reaches vector s t) : t = s := by
  obtain ⟨es, run⟩ := reached
  cases run with
  | nil => rfl
  | cons head tail =>
    have next := head.1
    unfold cpu at next
    rw [done] at next
    cases next

def returned (pending : BitVec 64) : System :=
  { visits 64 (start pending) with pc := .done }

theorem returned_status (pending : BitVec 64) : (returned pending).status = 0 := by
  change (visits 64 (start pending)).status = 0
  rw [high_visits (by decide), sign_status]

theorem returned_called (pending : BitVec 64) : (returned pending).called =
    (visit 31 (visits 31 (start pending))).called := by
  change (visits 64 (start pending)).called = _
  rw [high_visits (by decide)]
  rfl

theorem pass_callable {vector : Nat → Entry} {pending : BitVec 64}
    (registered : Registered vector pending)
    (sign : (visits 31 (start pending)).status &&& mask 31 ≠ 0 → (vector 31).action ≠ 0) :
    ∀ i < 64, (visits i (start pending)).status &&& mask i ≠ 0 → (vector i).action ≠ 0 := by
  intro i small meets
  by_cases low : i < 31
  · exact registered i small ((low_meets low).mp meets)
  · by_cases last : i = 31
    · subst last
      exact sign meets
    · rw [high_visits (by omega), sign_status] at meets
      exact absurd BitVec.zero_and meets

theorem run_returns {vector : Nat → Entry} {pending : BitVec 64}
    (registered : Registered vector pending)
    (sign : (visits 31 (start pending)).status &&& mask 31 ≠ 0 → (vector 31).action ≠ 0)
    (nonzero : pending ≠ 0) : Reaches vector (start pending) (returned pending) := by
  have entered : Reaches vector (start pending) { start pending with pc := .ifTest 0 } :=
    enter_reaches rfl nonzero
  have passed := pass_reaches (pass_callable registered sign)
  have left : Reaches vector { visits 64 (start pending) with pc := .whileTest }
      (returned pending) := return_reaches rfl (returned_status pending)
  exact reaches_trans entered (reaches_trans passed left)

/- A run that returns has called index 31 if a vector from 31 on was pending. -/
theorem sign_callable {vector : Nat → Entry} {pending : BitVec 64} {t : System}
    (registered : Registered vector pending) (reached : Reaches vector (start pending) t)
    (done : t.pc = .done) (meets : (visits 31 (start pending)).status &&& mask 31 ≠ 0) :
    (vector 31).action ≠ 0 := by
  have nonzero : pending ≠ 0 := by
    rintro rfl
    obtain ⟨v, -, -, set⟩ := sign_meets.mp meets
    simp [start] at set
  have entered : Reaches vector (start pending) { start pending with pc := .ifTest 0 } :=
    enter_reaches rfl nonzero
  have passed : Reaches vector { start pending with pc := .ifTest 0 }
      { visits 31 (start pending) with pc := .ifTest 31 } :=
    visits_reaches (by decide) fun i below met =>
      registered i (by omega) ((low_meets below).mp met)
  have tested : Reaches vector { visits 31 (start pending) with pc := .ifTest 31 }
      { visits 31 (start pending) with pc := .call 31 } := by
    have here : cpu { visits 31 (start pending) with pc := .ifTest 31 } =
        some { visits 31 (start pending) with pc := .call 31 } := by
      unfold cpu
      simp only [if_pos meets]
    exact reaches_step here trivial (reaches_refl _ _)
  obtain ⟨es, rest⟩ :=
    reaches_through (reaches_trans entered (reaches_trans passed tested)) reached done
  cases rest with
  | nil => cases done
  | cons head _ => exact head.2

theorem vectors_split (pending : BitVec 64) : vectors pending =
    ((List.range 31).filter fun i => pending.getLsbD i) ++
      (31 :: List.range' 32 32).filter fun i => pending.getLsbD i := by
  unfold vectors
  rw [← List.filter_append]
  rfl

theorem called_low {pending : BitVec 64} (low : ∀ v < 64, 32 ≤ v → pending.getLsbD v ≠ true) :
    (returned pending).called.reverse = vectors pending := by
  have rest : (List.range' 32 32).filter (fun i => pending.getLsbD i) = [] := by
    refine List.filter_eq_nil_iff.mpr fun v member => ?_
    obtain ⟨from_32, below⟩ := List.mem_range'_1.mp member
    exact low v (by omega) from_32
  have sign : (visits 31 (start pending)).status &&& mask 31 ≠ 0 ↔
      pending.getLsbD 31 = true := by
    rw [sign_meets]
    constructor
    · rintro ⟨v, small, beyond, set⟩
      by_cases same : v = 31
      · exact same ▸ set
      · exact absurd set (low v small (by omega))
    · exact fun set => ⟨31, by decide, Nat.le_refl 31, set⟩
  have lower : (visits 31 (start pending)).called.reverse =
      (List.range 31).filter fun i => pending.getLsbD i := by
    rw [low_called (Nat.le_refl 31)]
    change (List.reverse (_ ++ [])) = _
    rw [List.append_nil, List.reverse_reverse]
    rfl
  rw [returned_called, vectors_split]
  by_cases set : pending.getLsbD 31 = true
  · rw [visit_meets (sign.mpr set), List.filter_cons_of_pos set, rest]
    change (31 :: (visits 31 (start pending)).called).reverse = _
    rw [List.reverse_cons, lower]
  · rw [visit_misses (not_not.mp (mt sign.mp set)), List.filter_cons_of_neg set, rest, lower,
      List.append_nil]

theorem called_below {pending : BitVec 64} : ∀ v ∈ (returned pending).called, v ≤ 31 := by
  have lower : ∀ v ∈ (visits 31 (start pending)).called, v ≤ 31 := by
    intro v member
    rw [low_called (Nat.le_refl 31)] at member
    change v ∈ _ ++ [] at member
    rw [List.append_nil, List.mem_reverse] at member
    have below := List.mem_range.mp (List.mem_filter.mp member).1
    omega
  rw [returned_called]
  by_cases meets : (visits 31 (start pending)).status &&& mask 31 ≠ 0
  · rw [visit_meets meets]
    intro v member
    rcases List.mem_cons.mp member with rfl | old
    · exact Nat.le_refl 31
    · exact lower v old
  · rw [visit_misses (not_not.mp meets)]
    exact lower

theorem low_served {vector : Nat → Entry} {pending : BitVec 64}
    (registered : Registered vector pending) (low : pending.toNat < 2 ^ 32) :
    ServedOnce vector pending := by
  have low := beyond_iff.mp low
  by_cases none : pending = 0
  · subst none
    have left : Reaches vector (start 0) { start 0 with pc := .done } := return_reaches rfl rfl
    exact ⟨_, left, rfl, rfl, by decide⟩
  · have sign : (visits 31 (start pending)).status &&& mask 31 ≠ 0 → (vector 31).action ≠ 0 := by
      intro meets
      obtain ⟨v, small, beyond, set⟩ := sign_meets.mp meets
      by_cases same : v = 31
      · exact registered 31 (by decide) (same ▸ set)
      · exact absurd set (low v small (by omega))
    exact ⟨returned pending, run_returns registered sign none, rfl, returned_status pending,
      called_low low⟩

theorem served_low {vector : Nat → Entry} {pending : BitVec 64}
    (registered : Registered vector pending) (served : ServedOnce vector pending) :
    pending.toNat < 2 ^ 32 := by
  obtain ⟨t, reached, done, -, called⟩ := served
  refine beyond_iff.mpr fun v small high set => ?_
  have meets : (visits 31 (start pending)).status &&& mask 31 ≠ 0 :=
    sign_meets.mpr ⟨v, small, by omega, set⟩
  have nonzero : pending ≠ 0 := by
    rintro rfl
    simp at set
  have callable := sign_callable registered reached done meets
  have returns := run_returns registered (fun _ => callable) nonzero
  have same : t = returned pending := reaches_done rfl (reaches_through returns reached done)
  have listed : v ∈ vectors pending := List.mem_filter.mpr ⟨List.mem_range.mpr small, set⟩
  rw [← called, List.mem_reverse, same] at listed
  have below := called_below v listed
  omega

/-- The masks are built in 32 bits, so exactly the sets without a vector from 32 on are served. -/
theorem served_once_iff (vector : Nat → Entry) (pending : BitVec 64)
    (registered : Registered vector pending) :
    ServedOnce vector pending ↔ pending.toNat < 2 ^ 32 :=
  ⟨served_low registered, low_served registered⟩

/- Three vectors are pending, the last of them the highest one that the condition admits. -/
def threeVectors : Nat → Entry :=
  registerSoftirq (registerSoftirq (registerSoftirq softirqInit 0 0x1000 0) 3 0x2000 0) 31 0x3000 0

theorem served_once_three : ServedOnce threeVectors 0x80000009 ∧
    (ServedOnce threeVectors 0x80000009 ↔ (0x80000009 : BitVec 64).toNat < 2 ^ 32) := by
  have exact := served_once_iff threeVectors 0x80000009
    (by unfold Registered threeVectors registerSoftirq; decide)
  exact ⟨exact.mpr (by decide), exact⟩

/- Vector 40: its bit is cleared at index 31, whose action is called instead. -/
theorem high_vector_lost : ∃ vector pending, Registered vector pending ∧ (vector 31).action ≠ 0 ∧
    ¬ ServedOnce vector pending := by
  have registered : Registered (registerSoftirq (registerSoftirq softirqInit 31 0x1000 0) 40 0x2000 0)
      (1 <<< 40) := by
    unfold Registered registerSoftirq
    decide
  refine ⟨_, 1 <<< 40, registered, by decide, fun served => ?_⟩
  exact absurd (served_low registered served) (by decide)

end Softirq

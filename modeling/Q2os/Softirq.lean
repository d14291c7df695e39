import Mathlib.Tactic.ByContra
import Q2os.Run

/- do_softirq against the interrupts that raise softirqs while it runs: one load, call or store
   of do_softirq a step, with raises between any two of them. -/
namespace Softirq
open Run

/-- 1 << i is an int: the shift takes i modulo 32, and the sign is extended. -/
def mask (i : Nat) : BitVec 64 := (1#32 <<< (i % 32)).signExtend 64

/- The next thing that do_softirq does. The action runs between its call and the load for the
clearing of the bit; value is what that load has left to store. -/
inductive Pc where
  | whileTest
  | ifTest (i : Nat)
  | call (i : Nat)
  | clearLoad (i : Nat)
  | clearStore (i : Nat) (value : BitVec 64)
  | done
  deriving DecidableEq

/-- raised has the vectors ever raised, owed those raised since their action was last started,
and called those whose action was started. -/
structure System where
  status : BitVec 64
  pc : Pc
  raised : BitVec 64
  owed : BitVec 64
  called : List Nat

inductive Event where
  | cpu
  | setSoftirqStatus (status : BitVec 64)

def start (pending : BitVec 64) : System := ⟨pending, .whileTest, pending, pending, []⟩

def forNext (i : Nat) : Pc := if i + 1 < 64 then .ifTest (i + 1) else .whileTest

def cpu (s : System) : Option System :=
  match s.pc with
  | .whileTest => some { s with pc := if s.status = 0 then .done else .ifTest 0 }
  | .ifTest i => some { s with pc := if s.status &&& mask i ≠ 0 then .call i else forNext i }
  | .call i => some { s with
      pc := .clearLoad i, owed := s.owed &&& ~~~(1#64 <<< i), called := i :: s.called }
  | .clearLoad i => some { s with pc := .clearStore i (s.status &&& ~~~mask i) }
  | .clearStore i value => some { s with pc := forNext i, status := value }
  | .done => none

def next (s : System) : Event → Option System
  | .cpu => cpu s
  | .setSoftirqStatus m =>
    if s.pc = .done then none
    else some { s with status := s.status ||| m, raised := s.raised ||| m, owed := s.owed ||| m }

def Step (s : System) (e : Event) (t : System) : Prop := next s e = some t

/-- Every raise is followed by a start of its action before do_softirq returns, and no action is
started without a raise. -/
structure Served (s : System) : Prop where
  handled : s.pc = .done → s.owed = 0
  raised : ∀ i ∈ s.called, s.raised.getLsbD i = true

/- The mask of index i contains bit v. -/
def Meets (i v : Nat) : Prop := (mask i).getLsbD v = true

instance (i v : Nat) : Decidable (Meets i v) := inferInstanceAs (Decidable (_ = true))

/- Of the indices from p on, the first whose mask contains bit v is v itself; after 63 they start
again at 0. -/
def Ahead (p v : Nat) : Prop :=
  v < 64 ∧ Meets v v ∧ (p ≤ v ∧ (∀ j < v, p ≤ j → ¬ Meets j v) ∨
    v < p ∧ (∀ j < 64, p ≤ j → ¬ Meets j v) ∧ ∀ j < v, ¬ Meets j v)

instance (p v : Nat) : Decidable (Ahead p v) := inferInstanceAs (Decidable (_ ∧ _))

/- A raise of v at this point is met at index v, and nothing clears its bit before. -/
def Heeded : Pc → Nat → Prop
  | .whileTest, v => Ahead 0 v
  | .ifTest i, v => Ahead i v
  | .call i, v => v = i ∨ ¬ Meets i v ∧ Ahead (i + 1) v
  | .clearLoad i, v => ¬ Meets i v ∧ Ahead (i + 1) v
  | .clearStore _ _, _ => False
  | .done, _ => False

def HeededRaise (s : System) : Event → Prop
  | .cpu => True
  | .setSoftirqStatus m => ∀ v < 64, m.getLsbD v = true → Heeded s.pc v

instance (pc : Pc) (v : Nat) : Decidable (Heeded pc v) :=
  match pc with
  | .whileTest => inferInstanceAs (Decidable (Ahead 0 v))
  | .ifTest i => inferInstanceAs (Decidable (Ahead i v))
  | .call i => inferInstanceAs (Decidable (v = i ∨ ¬ Meets i v ∧ Ahead (i + 1) v))
  | .clearLoad i => inferInstanceAs (Decidable (¬ Meets i v ∧ Ahead (i + 1) v))
  | .clearStore _ _ => inferInstanceAs (Decidable False)
  | .done => inferInstanceAs (Decidable False)

instance (s : System) (e : Event) : Decidable (HeededRaise s e) :=
  match e with
  | .cpu => inferInstanceAs (Decidable True)
  | .setSoftirqStatus m => inferInstanceAs (Decidable (∀ v < 64, m.getLsbD v = true → Heeded s.pc v))

/- Where the bit of an owed vector is kept until its index is met. -/
def Kept : Pc → Nat → Prop
  | .clearStore i _, v => ¬ Meets i v ∧ Ahead (i + 1) v
  | pc, v => Heeded pc v

/- The index whose action was started and whose bit is not cleared yet. -/
def Clearing : Pc → Nat → Prop
  | .clearLoad i, v => v = i ∧ Meets i v
  | .clearStore i _, v => v = i ∧ Meets i v
  | _, _ => False

def At (i : Nat) : Pc → Prop
  | .ifTest j => j = i
  | .call j => j = i
  | .clearLoad j => j = i
  | .clearStore j _ => j = i
  | _ => False

structure Pending (s : System) : Prop where
  owed : ∀ v < 64, s.owed.getLsbD v = true → s.status.getLsbD v = true ∧ Kept s.pc v
  status : ∀ v < 64, s.status.getLsbD v = true → s.owed.getLsbD v = true ∨ Clearing s.pc v
  raised : ∀ v < 64, s.owed.getLsbD v = true → s.raised.getLsbD v = true
  called : ∀ i ∈ s.called, s.raised.getLsbD i = true
  index : ∀ i, At i s.pc → i < 64
  calling : ∀ i, s.pc = .call i → s.owed.getLsbD i = true ∧ Meets i i
  storing : ∀ i value, s.pc = .clearStore i value → value = s.status &&& ~~~mask i

theorem ahead_here {i v : Nat} (small : i < 64) (ahead : Ahead i v) (meets : Meets i v) : v = i := by
  obtain ⟨-, -, ⟨low, none⟩ | ⟨low, none, -⟩⟩ := ahead
  · by_contra other
    exact none i (by omega) (Nat.le_refl i) meets
  · exact absurd meets (none i small (Nat.le_refl i))

theorem ahead_next {i v : Nat} (ahead : Ahead i v) (misses : ¬ Meets i v) : Ahead (i + 1) v := by
  obtain ⟨small, itself, ⟨low, none⟩ | ⟨low, none, before⟩⟩ := ahead
  · have other : i ≠ v := by
      rintro rfl
      exact misses itself
    exact ⟨small, itself, Or.inl ⟨by omega, fun j below from_i => none j below (by omega)⟩⟩
  · exact ⟨small, itself, Or.inr ⟨by omega, fun j below from_i => none j below (by omega), before⟩⟩

theorem ahead_again {v : Nat} (ahead : Ahead 64 v) : Ahead 0 v := by
  obtain ⟨small, itself, ⟨low, -⟩ | ⟨-, -, before⟩⟩ := ahead
  · omega
  · exact ⟨small, itself, Or.inl ⟨Nat.zero_le v, fun j below _ => before j below⟩⟩

theorem ahead_forNext {i v : Nat} (small : i < 64) (ahead : Ahead (i + 1) v) :
    Heeded (forNext i) v := by
  unfold forNext
  by_cases more : i + 1 < 64
  · rw [if_pos more]
    exact ahead
  · have last : i = 63 := by omega
    subst last
    exact ahead_again ahead

theorem kept_forNext {i v : Nat} : Kept (forNext i) v ↔ Heeded (forNext i) v := by
  unfold forNext
  split <;> exact Iff.rfl

theorem at_forNext {i j : Nat} (at_j : At j (forNext i)) : j < 64 := by
  unfold forNext at at_j
  split at at_j
  · next more => exact at_j ▸ more
  · exact at_j.elim

theorem forNext_ne_call (i j : Nat) : forNext i ≠ .call j := by
  unfold forNext
  split <;> exact Pc.noConfusion

theorem forNext_ne_store (i j : Nat) (value : BitVec 64) : forNext i ≠ .clearStore j value := by
  unfold forNext
  split <;> exact Pc.noConfusion

/- The test of index i is true exactly if its mask meets a pending vector. -/
theorem mask_and_ne_zero {x : BitVec 64} {i : Nat} :
    x &&& mask i ≠ 0 ↔ ∃ v < 64, x.getLsbD v = true ∧ Meets i v := by
  constructor
  · intro nonzero
    by_contra none
    refine nonzero (BitVec.eq_of_getLsbD_eq fun v small => ?_)
    rw [BitVec.getLsbD_and]
    have zero : (0 : BitVec 64).getLsbD v = false := BitVec.getLsbD_zero
    rw [zero]
    by_contra both
    rw [Bool.not_eq_false, Bool.and_eq_true] at both
    exact none ⟨v, small, both.1, both.2⟩
  · rintro ⟨v, small, set, meets⟩ zero
    have bits : (x &&& mask i).getLsbD v = true := by
      rw [BitVec.getLsbD_and, set]
      exact meets
    rw [zero] at bits
    simp at bits

theorem bit_or {x y : BitVec 64} {v : Nat} :
    (x ||| y).getLsbD v = true ↔ x.getLsbD v = true ∨ y.getLsbD v = true := by
  rw [BitVec.getLsbD_or, Bool.or_eq_true]

theorem bit_cleared {x : BitVec 64} {i v : Nat} (small : v < 64) :
    (x &&& ~~~mask i).getLsbD v = true ↔ x.getLsbD v = true ∧ ¬ Meets i v := by
  rw [BitVec.getLsbD_and, BitVec.getLsbD_not, Bool.and_eq_true]
  simp [small, Meets]

theorem bit_started {x : BitVec 64} {i v : Nat} (small : v < 64) :
    (x &&& ~~~(1#64 <<< i)).getLsbD v = true ↔ x.getLsbD v = true ∧ v ≠ i := by
  rw [BitVec.getLsbD_and, BitVec.getLsbD_not, BitVec.getLsbD_shiftLeft, BitVec.getLsbD_one,
    Bool.and_eq_true]
  simp [small]
  omega

theorem heeded_kept {pc : Pc} {v : Nat} (heeded : Heeded pc v) : Kept pc v := by
  cases pc with
  | clearStore i value => exact heeded.elim
  | _ => exact heeded

theorem raise_pending {s : System} {m : BitVec 64} (pending : Pending s)
    (heeded : ∀ v < 64, m.getLsbD v = true → Heeded s.pc v) :
    Pending { s with status := s.status ||| m, raised := s.raised ||| m, owed := s.owed ||| m } := by
  constructor
  · intro v small owed
    rcases bit_or.mp owed with old | new
    · obtain ⟨set, kept⟩ := pending.owed v small old
      exact ⟨bit_or.mpr (Or.inl set), kept⟩
    · exact ⟨bit_or.mpr (Or.inr new), heeded_kept (heeded v small new)⟩
  · intro v small set
    rcases bit_or.mp set with old | new
    · exact (pending.status v small old).imp_left fun owed => bit_or.mpr (Or.inl owed)
    · exact Or.inl (bit_or.mpr (Or.inr new))
  · intro v small owed
    rcases bit_or.mp owed with old | new
    · exact bit_or.mpr (Or.inl (pending.raised v small old))
    · exact bit_or.mpr (Or.inr new)
  · exact fun i member => bit_or.mpr (Or.inl (pending.called i member))
  · exact pending.index
  · intro i calling
    obtain ⟨owed, meets⟩ := pending.calling i calling
    exact ⟨bit_or.mpr (Or.inl owed), meets⟩
  · intro i value storing
    have none : m = 0 := by
      refine BitVec.eq_of_getLsbD_eq fun v small => ?_
      have zero : (0 : BitVec 64).getLsbD v = false := BitVec.getLsbD_zero
      rw [zero]
      by_contra set
      rw [Bool.not_eq_false] at set
      have during := heeded v small set
      have at_store : s.pc = .clearStore i value := storing
      rw [at_store] at during
      exact during
    have kept := pending.storing i value storing
    rw [none]
    simpa using kept

theorem while_pending {s : System} (pending : Pending s) (here : s.pc = .whileTest) :
    Pending { s with pc := if s.status = 0 then .done else .ifTest 0 } := by
  by_cases zero : s.status = 0
  · rw [if_pos zero]
    have none : ∀ v < 64, s.owed.getLsbD v ≠ true := by
      intro v small owed
      have set := (pending.owed v small owed).1
      rw [zero] at set
      simp at set
    constructor
    · exact fun v small owed => absurd owed (none v small)
    · intro v small set
      have set : s.status.getLsbD v = true := set
      rw [zero] at set
      simp at set
    · exact pending.raised
    · exact pending.called
    · exact fun _ at_i => at_i.elim
    · exact fun _ calling => by cases calling
    · exact fun _ _ storing => by cases storing
  · rw [if_neg zero]
    constructor
    · intro v small owed
      have kept := pending.owed v small owed
      rw [here] at kept
      exact kept
    · intro v small set
      have owed := pending.status v small set
      rw [here] at owed
      exact owed
    · exact pending.raised
    · exact pending.called
    · intro i at_i
      have zero : 0 = i := at_i
      omega
    · exact fun _ calling => by cases calling
    · exact fun _ _ storing => by cases storing

theorem if_pending {s : System} {i : Nat} (pending : Pending s) (here : s.pc = .ifTest i) :
    Pending { s with pc := if s.status &&& mask i ≠ 0 then .call i else forNext i } := by
  have small : i < 64 := pending.index i (by rw [here]; rfl)
  have owed : ∀ v < 64, s.status.getLsbD v = true → s.owed.getLsbD v = true ∧ Ahead i v := by
    intro v inWord set
    have owed := (pending.status v inWord set).resolve_right (by rw [here]; exact id)
    have kept := (pending.owed v inWord owed).2
    rw [here] at kept
    exact ⟨owed, kept⟩
  by_cases met : s.status &&& mask i ≠ 0
  · rw [if_pos met]
    obtain ⟨v, inWord, set, meets⟩ := mask_and_ne_zero.mp met
    have same := ahead_here small (owed v inWord set).2 meets
    subst same
    constructor
    · intro w inWord' isOwed
      have set' := (pending.owed w inWord' isOwed).1
      refine ⟨set', ?_⟩
      by_cases again : w = v
      · exact Or.inl again
      · have misses : ¬ Meets v w := fun also =>
          again (ahead_here small (owed w inWord' set').2 also)
        exact Or.inr ⟨misses, ahead_next (owed w inWord' set').2 misses⟩
    · exact fun w inWord' set' => Or.inl (owed w inWord' set').1
    · exact pending.raised
    · exact pending.called
    · intro j at_j
      have same : v = j := at_j
      exact same ▸ small
    · intro j calling
      cases calling
      exact ⟨(owed v inWord set).1, meets⟩
    · exact fun _ _ storing => by cases storing
  · rw [if_neg met]
    have misses : ∀ v < 64, s.status.getLsbD v = true → ¬ Meets i v :=
      fun v inWord set meets => met (mask_and_ne_zero.mpr ⟨v, inWord, set, meets⟩)
    constructor
    · intro v inWord isOwed
      have set := (pending.owed v inWord isOwed).1
      have next := ahead_next (owed v inWord set).2 (misses v inWord set)
      exact ⟨set, kept_forNext.mpr (ahead_forNext small next)⟩
    · exact fun v inWord set => Or.inl (owed v inWord set).1
    · exact pending.raised
    · exact pending.called
    · exact fun j => at_forNext
    · exact fun j calling => absurd calling (forNext_ne_call i j)
    · exact fun j value storing => absurd storing (forNext_ne_store i j value)

theorem call_pending {s : System} {i : Nat} (pending : Pending s) (here : s.pc = .call i) :
    Pending { s with
      pc := .clearLoad i, owed := s.owed &&& ~~~(1#64 <<< i), called := i :: s.called } := by
  have small : i < 64 := pending.index i (by rw [here]; rfl)
  obtain ⟨calling, meets⟩ := pending.calling i here
  constructor
  · intro v inWord owed
    obtain ⟨old, other⟩ := (bit_started inWord).mp owed
    obtain ⟨set, kept⟩ := pending.owed v inWord old
    rw [here] at kept
    exact ⟨set, kept.resolve_left other⟩
  · intro v inWord set
    have owed := (pending.status v inWord set).resolve_right (by rw [here]; exact id)
    by_cases same : v = i
    · exact Or.inr ⟨same, same ▸ meets⟩
    · exact Or.inl ((bit_started inWord).mpr ⟨owed, same⟩)
  · exact fun v inWord owed => pending.raised v inWord ((bit_started inWord).mp owed).1
  · intro j member
    rcases List.mem_cons.mp member with rfl | old
    · exact pending.raised j small calling
    · exact pending.called j old
  · intro j at_j
    have same : i = j := at_j
    exact same ▸ small
  · exact fun _ calling => by cases calling
  · exact fun _ _ storing => by cases storing

theorem load_pending {s : System} {i : Nat} (pending : Pending s) (here : s.pc = .clearLoad i) :
    Pending { s with pc := .clearStore i (s.status &&& ~~~mask i) } := by
  have small : i < 64 := pending.index i (by rw [here]; rfl)
  constructor
  · intro v inWord owed
    have kept := pending.owed v inWord owed
    rw [here] at kept
    exact kept
  · intro v inWord set
    have owed := pending.status v inWord set
    rw [here] at owed
    exact owed
  · exact pending.raised
  · exact pending.called
  · intro j at_j
    have same : i = j := at_j
    exact same ▸ small
  · exact fun _ calling => by cases calling
  · intro j value storing
    cases storing
    rfl

theorem store_pending {s : System} {i : Nat} {value : BitVec 64} (pending : Pending s)
    (here : s.pc = .clearStore i value) : Pending { s with pc := forNext i, status := value } := by
  have small : i < 64 := pending.index i (by rw [here]; rfl)
  have stored := pending.storing i value here
  subst stored
  constructor
  · intro v inWord owed
    obtain ⟨set, kept⟩ := pending.owed v inWord owed
    rw [here] at kept
    exact ⟨(bit_cleared inWord).mpr ⟨set, kept.1⟩, kept_forNext.mpr (ahead_forNext small kept.2)⟩
  · intro v inWord set
    obtain ⟨old, misses⟩ := (bit_cleared inWord).mp set
    have owed := pending.status v inWord old
    rw [here] at owed
    exact Or.inl (owed.resolve_right fun clearing => misses clearing.2)
  · exact pending.raised
  · exact pending.called
  · exact fun j => at_forNext
  · exact fun j calling => absurd calling (forNext_ne_call i j)
  · exact fun j value storing => absurd storing (forNext_ne_store i j value)

theorem step_pending {s t : System} {e : Event} (pending : Pending s)
    (step : Guarded HeededRaise Step s e t) : Pending t := by
  obtain ⟨step, heeded⟩ := step
  cases e with
  | cpu =>
    unfold Step next cpu at step
    cases here : s.pc with
    | whileTest =>
      rw [here] at step
      cases step
      exact while_pending pending here
    | ifTest i =>
      rw [here] at step
      cases step
      exact if_pending pending here
    | call i =>
      rw [here] at step
      cases step
      exact call_pending pending here
    | clearLoad i =>
      rw [here] at step
      cases step
      exact load_pending pending here
    | clearStore i value =>
      rw [here] at step
      cases step
      exact store_pending pending here
    | done =>
      rw [here] at step
      cases step
  | setSoftirqStatus m =>
    unfold Step next at step
    obtain ⟨-, made⟩ := Option.ite_none_left_eq_some.mp step
    cases made
    exact raise_pending pending heeded

theorem start_pending {pending : BitVec 64}
    (heeded : ∀ v < 64, pending.getLsbD v = true → Heeded .whileTest v) : Pending (start pending) := by
  constructor
  · exact fun v small set => ⟨set, heeded v small set⟩
  · exact fun _ _ set => Or.inl set
  · exact fun _ _ set => set
  · exact fun _ member => absurd member List.not_mem_nil
  · exact fun _ at_i => at_i.elim
  · exact fun _ calling => by cases calling
  · exact fun _ _ storing => by cases storing

theorem served_of_pending {s : System} (pending : Pending s) : Served s := by
  constructor
  · intro done
    refine BitVec.eq_of_getLsbD_eq fun v small => ?_
    have zero : (0 : BitVec 64).getLsbD v = false := BitVec.getLsbD_zero
    rw [zero]
    by_contra owed
    rw [Bool.not_eq_false] at owed
    have kept := (pending.owed v small owed).2
    rw [done] at kept
    exact kept
  · exact pending.called

/-- No raise is lost as long as each falls where the scan still meets its bit first at its own
index and nothing clears the bit before. -/
theorem raises_served (pending : BitVec 64)
    (heeded : ∀ v < 64, pending.getLsbD v = true → Heeded .whileTest v) (es : List Event)
    (t : System) (run : Steps (Guarded HeededRaise Step) (start pending) es t) : Served t := by
  have keep : ∀ s e t, Pending s → Guarded HeededRaise Step s e t → Pending t :=
    fun _ _ _ known step => step_pending known step
  exact served_of_pending (invariant_of_step keep run (start_pending heeded))

def heededNext (s : System) (e : Event) : Option System :=
  if HeededRaise s e then next s e else none

theorem steps_of_heeded {s t : System} {es : List Event} (ran : exec heededNext s es = some t) :
    Steps (Guarded HeededRaise Step) s es t := by
  refine steps_mono (fun s e t one => ?_) (steps_of_exec ran)
  unfold heededNext at one
  split at one
  · next heeded => exact ⟨one, heeded⟩
  · cases one

/- Vector 0 is pending. Vectors 1 and 5 are raised while its action runs, and vector 1 once more
   when do_softirq is about to call it. -/
def busyRun : List Event :=
  .replicate 3 .cpu ++ .setSoftirqStatus 0x22 :: (.replicate 3 .cpu ++ .setSoftirqStatus 2 ::
    .replicate 69 .cpu)

theorem raises_served_during : ∃ t, Steps (Guarded HeededRaise Step) (start 1) busyRun t ∧
    t.pc = .done ∧ t.called = [5, 1, 0] ∧ Served t := by
  have ran : (exec heededNext (start 1) busyRun).map (fun t => (t.pc, t.called)) =
      some (.done, [5, 1, 0]) := by decide +kernel
  obtain ⟨t, ran, ends⟩ := Option.map_eq_some_iff.mp ran
  obtain ⟨done, called⟩ := Prod.mk.inj ends
  have heeded : ∀ v < 64, (1 : BitVec 64).getLsbD v = true → Heeded .whileTest v := by
    decide +kernel
  exact ⟨t, steps_of_heeded ran, done, called,
    raises_served 1 heeded _ t (steps_of_heeded ran)⟩

/- The timer is due again while its action still runs: the bit is cleared and do_softirq
   returns. -/
theorem raise_cleared : ∃ t, Steps Step (start 1)
    ([.cpu, .cpu, .cpu, .setSoftirqStatus 1] ++ List.replicate 66 .cpu) t ∧ t.called = [0] ∧
    ¬ Served t := by
  have ran : (exec next (start 1) ([.cpu, .cpu, .cpu, .setSoftirqStatus 1] ++
      List.replicate 66 .cpu)).map (fun t => (t.pc, t.owed, t.called)) =
      some (.done, 1, [0]) := by decide +kernel
  obtain ⟨t, ran, ends⟩ := Option.map_eq_some_iff.mp ran
  obtain ⟨done, rest⟩ := Prod.mk.inj ends
  obtain ⟨owed, called⟩ := Prod.mk.inj rest
  refine ⟨t, steps_of_exec ran, called, ?_⟩
  intro served
  have zero := served.handled done
  rw [owed] at zero
  exact absurd zero (by decide)

end Softirq

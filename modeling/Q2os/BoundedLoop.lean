import Mathlib.Logic.Function.Iterate

/- A loop that stops at the first state with a property, given a number of rounds, and whether
   some number of rounds is enough. -/
namespace BoundedLoop
variable {σ ρ : Type} (stops : σ → Prop) (next : σ → σ) (answer : σ → ρ)

/- The first state on the way that stops the loop. -/
structure FirstStop (s : σ) (n : Nat) : Prop where
  here : stops (next^[n] s)
  first : ∀ m < n, ¬ stops (next^[m] s)

theorem firstStop_zero {s : σ} (here : stops s) : FirstStop stops next s 0 :=
  ⟨here, fun _ less => absurd less (Nat.not_lt_zero _)⟩

theorem firstStop_succ {s : σ} (goes_on : ¬ stops s) (n : Nat) :
    FirstStop stops next s (n + 1) ↔ FirstStop stops next (next s) n := by
  constructor
  · intro stop
    exact ⟨stop.here, fun m less => stop.first (m + 1) (Nat.succ_lt_succ less)⟩
  · intro stop
    refine ⟨stop.here, fun m less => ?_⟩
    cases m with
    | zero => exact goes_on
    | succ m => exact stop.first m (Nat.lt_of_succ_lt_succ less)

variable [DecidablePred stops]

def loop : Nat → σ → Option ρ
  | 0, _ => none
  | rounds + 1, s => if stops s then some (answer s) else loop rounds (next s)

/-- What the loop answers is the answer of the first state that stops it. -/
theorem loop_some_iff {rounds : Nat} {s : σ} {r : ρ} :
    loop stops next answer rounds s = some r ↔
      ∃ n < rounds, FirstStop stops next s n ∧ answer (next^[n] s) = r := by
  induction rounds generalizing s with
  | zero =>
    constructor
    · intro none_
      cases none_
    · intro some_
      obtain ⟨n, less, _⟩ := some_
      exact absurd less (Nat.not_lt_zero n)
  | succ rounds ih =>
    rw [loop]
    by_cases here : stops s
    · rw [if_pos here, Option.some.injEq]
      constructor
      · intro same
        exact ⟨0, Nat.succ_pos _, firstStop_zero stops next here, same⟩
      · intro stop
        obtain ⟨n, _, stop, same⟩ := stop
        cases n with
        | zero => exact same
        | succ n => exact absurd here (stop.first 0 (Nat.succ_pos n))
    · rw [if_neg here, ih]
      constructor
      · intro stop
        obtain ⟨n, less, stop, same⟩ := stop
        exact ⟨n + 1, Nat.succ_lt_succ less, (firstStop_succ stops next here n).mpr stop, same⟩
      · intro stop
        obtain ⟨n, less, stop, same⟩ := stop
        cases n with
        | zero => exact absurd stop.here here
        | succ n =>
          exact ⟨n, Nat.lt_of_succ_lt_succ less, (firstStop_succ stops next here n).mp stop, same⟩

/- A state that stops the loop has a first one before it. -/
theorem firstStop_exists {s : σ} {n : Nat} (stop : stops (next^[n] s)) :
    ∃ m ≤ n, FirstStop stops next s m := by
  induction n generalizing s with
  | zero => exact ⟨0, Nat.le_refl 0, firstStop_zero stops next stop⟩
  | succ n ih =>
    by_cases here : stops s
    · exact ⟨0, Nat.zero_le _, firstStop_zero stops next here⟩
    · obtain ⟨m, less, first⟩ := ih stop
      exact ⟨m + 1, Nat.succ_le_succ less, (firstStop_succ stops next here m).mpr first⟩

/-- Some number of rounds is enough exactly if some state on the way stops the loop. -/
theorem loop_returns_iff (s : σ) :
    (∃ rounds r, loop stops next answer rounds s = some r) ↔ ∃ n, stops (next^[n] s) := by
  constructor
  · intro returned
    obtain ⟨rounds, r, returned⟩ := returned
    obtain ⟨n, _, stop, _⟩ := (loop_some_iff stops next answer).mp returned
    exact ⟨n, stop.here⟩
  · intro stop
    obtain ⟨n, stop⟩ := stop
    obtain ⟨m, _, first⟩ := firstStop_exists stops next stop
    exact ⟨m + 1, _, (loop_some_iff stops next answer).mpr
      ⟨m, Nat.lt_succ_self m, first, rfl⟩⟩

end BoundedLoop

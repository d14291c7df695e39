import Q2os.FormatDirectives

/- Whole runs of vsprintf: every format is scanned to its end and no further. -/
namespace Printk
open ByteMemory Fat32
open StateRuns

def InertFrom (format : Nat → UInt8) (n i : Nat) : Prop := ∀ j < n, i ≤ j → InertAt format j

instance (format : Nat → UInt8) (n i : Nat) : Decidable (InertFrom format n i) :=
  inferInstanceAs (Decidable (∀ j < n, _))

structure Finished (format : Nat → UInt8) (n : Nat) (s s' : Scan) : Prop where
  seen : ∀ i ∈ s'.seen, i ∈ s.seen ∨ i ≤ n
  taken : s.taken ≤ s'.taken
  idle : s'.taken = s.taken → Printed format s s' (n - s.fmt) (InertFrom format n s.fmt)
  plain : InertFrom format n s.fmt → s'.taken = s.taken

section scanning
variable {format : Nat → UInt8} {args : Nat → BitVec 64} {n : Nat} {s s' t : Scan}

theorem Directed.inert_iff (directed : Directed format n s t) :
    InertFrom format n s.fmt ↔ InertAt format s.fmt ∧ InertFrom format n (t.fmt + 1) := by
  have forward := directed.forward
  have below := directed.below
  constructor
  · intro inert
    exact ⟨inert s.fmt (by omega) (Nat.le_refl _), fun j less later => inert j less (by omega)⟩
  · intro inert j less from_
    obtain ⟨first, rest⟩ := inert
    obtain ⟨_, near, solid⟩ := directed.plain first
    by_cases here : j = s.fmt
    · rw [here]
      exact first
    · by_cases passed : j ≤ t.fmt
      · have second : j = s.fmt + 1 := by omega
        intro percent
        rw [second] at percent
        exact absurd percent (solid (by omega))
      · exact rest j less (by omega)

theorem directed_finished (directed : Directed format n s t)
    (rest : Finished format n { t with fmt := t.fmt + 1 } s') : Finished format n s s' := by
  have forward := directed.forward
  have below := directed.below
  have taken := directed.taken
  have taken' : t.taken ≤ s'.taken := rest.taken
  refine ⟨fun i looked => (rest.seen i looked).elim (directed.seen i) Or.inr, by omega,
    fun same => ?_, fun inert => ?_⟩
  · obtain ⟨memory₁, w₁, str₁, short₁, long₁, exact₁⟩ := directed.idle (by omega)
    obtain ⟨memory₂, w₂, str₂, short₂, long₂, exact₂⟩ := rest.idle (show s'.taken = t.taken by omega)
    have left : n - s.fmt = (t.fmt + 1 - s.fmt) + (n - (t.fmt + 1)) := by omega
    refine ⟨memory₂.trans memory₁, w₁ ++ w₂, ?_, ?_, fun long => ?_, fun inert => ?_⟩
    · rw [str₂, show ({ t with fmt := t.fmt + 1 } : Scan).str = t.str from rfl, str₁, List.append_assoc]
    · rw [List.length_append, left]
      exact Nat.add_le_add short₁ short₂
    · rw [List.length_append, left] at long
      have short₂' : w₂.length ≤ n - (t.fmt + 1) := short₂
      exact directed.inert_iff.mpr ⟨long₁ (by omega), long₂ (show w₂.length = n - (t.fmt + 1) by omega)⟩
    · obtain ⟨first, later⟩ := directed.inert_iff.mp inert
      rw [exact₁ first, exact₂ later, left, slice_append]
      congr 2
      show t.fmt + 1 = s.fmt + (t.fmt + 1 - s.fmt)
      omega
  · obtain ⟨first, later⟩ := directed.inert_iff.mp inert
    exact (rest.plain later).trans (directed.plain first).1

theorem scan_ends (args : Nat → BitVec 64) (string : Terminated format n) (rounds k : Nat)
    (within : s.fmt ≤ n) (enough : n < rounds) (enough' : n < k + s.fmt) :
    Ends (scan format args rounds k) s fun _ s' => Finished format n s s' := by
  induction k generalizing s with
  | zero => omega
  | succ k ih =>
    rw [scan]
    refine ends_bind ⟨_, _, rfl, ends_ite (fun some_ => ?_) (fun none_ => ?_)⟩
    · have below := string.lt within some_
      have directed := directive_ends args string rounds
        (s := { s with seen := s.fmt :: s.seen }) below (by show n < rounds + s.fmt; omega)
      refine ends_then directed fun _ t directed => ?_
      have below' := directed.below
      have forward : s.fmt ≤ t.fmt := directed.forward
      refine ends_bind ⟨_, _, rfl, ?_⟩
      refine ends_mono (ih (s := { t with fmt := t.fmt + 1 }) below' (by show n < k + (t.fmt + 1); omega))
        fun _ s' rest => ?_
      have all := directed_finished directed rest
      exact {
        seen := fun i looked => (all.seen i looked).elim
          (fun member => (List.mem_cons.mp member).elim (fun here => Or.inr (here ▸ within)) Or.inl) Or.inr
        taken := all.taken
        idle := fun same => ⟨(all.idle same).memory, (all.idle same).text⟩
        plain := all.plain }
    · have ended : format s.fmt = 0 := Decidable.not_not.mp none_
      have last : s.fmt = n := by
        by_contra other
        exact string.solid s.fmt (by omega) ended
      have none' : n - s.fmt = 0 := by omega
      exact ends_pure {
        seen := fun i looked => (List.mem_cons.mp looked).elim (fun here => Or.inr (here ▸ within)) Or.inl
        taken := Nat.le_refl _
        idle := fun _ => ⟨rfl, [], (List.append_nil _).symm, Nat.zero_le _,
          fun _ j less from_ => absurd (Nat.lt_of_lt_of_le less (last ▸ from_)) (Nat.lt_irrefl _),
          fun _ => by rw [none']; rfl⟩
        plain := fun _ => rfl }

end scanning

section returned
variable {format : Nat → UInt8} {args : Nat → BitVec 64} {n rounds : Nat} {memory : Memory}

theorem vsprintf_finished (string : Terminated format n) (args : Nat → BitVec 64) (memory : Memory)
    (enough : n < rounds) :
    ∃ s, vsprintf format args rounds memory = some (toInt32 s.str.length, s) ∧
      Finished format n ⟨0, [], 0, memory, []⟩ s := by
  obtain ⟨_, s, ran, finished⟩ := scan_ends (s := ⟨0, [], 0, memory, []⟩) args string rounds
    rounds (Nat.zero_le n) enough enough
  refine ⟨s, ?_, finished⟩
  unfold vsprintf
  rw [ran]
  rfl

/- A format without directives is printed as it stands. -/
theorem vsprintf_inert (string : Terminated format n) (enough : n < rounds)
    (inert : InertFrom format n 0) :
    ∃ s, vsprintf format args rounds memory = some (toInt32 n, s) ∧
      s.str = slice format 0 n ∧ s.taken = 0 ∧ s.memory = memory := by
  obtain ⟨s, ran, finished⟩ := vsprintf_finished string args memory enough
  have fetched : s.taken = 0 := finished.plain inert
  obtain ⟨kept, w, str, _, _, exact_⟩ := finished.idle fetched
  have whole : s.str = slice format 0 n := by
    rw [str, exact_ inert]
    rfl
  rw [whole, slice_length] at ran
  exact ⟨s, ran, whole, fetched, kept⟩

end returned

/-- Every format is scanned to its end, and no byte behind its 0 is looked at. -/
theorem vsprintf_scanned {format : Nat → UInt8} {n : Nat} (string : Terminated format n)
    (args : Nat → BitVec 64) (memory : Memory) {rounds : Nat} (enough : n < rounds) :
    ∃ value s, vsprintf format args rounds memory = some (value, s) ∧ (∀ i ∈ s.seen, i ≤ n) ∧
      value = toInt32 s.str.length ∧ (s.str.length < 2 ^ 31 → value = s.str.length) := by
  obtain ⟨s, ran, finished⟩ := vsprintf_finished string args memory enough
  refine ⟨_, s, ran, fun i looked => ?_, rfl, fun small => toInt32_fits (by omega) (by omega)⟩
  exact (finished.seen i looked).resolve_left List.not_mem_nil

def unfinished (i : Nat) : UInt8 := [0x25, 0x2d, 0x35].getD i 0

theorem vsprintf_scanned_unfinished :
    ∃ value s, vsprintf unfinished (fun _ => 0) 4 (fun _ => 0) = some (value, s) ∧
      (∀ i ∈ s.seen, i ≤ 3) ∧ value = toInt32 s.str.length ∧
      (s.str.length < 2 ^ 31 → value = s.str.length) :=
  vsprintf_scanned ⟨rfl, by decide⟩ _ _ (by decide)

/- 2^31 letters. -/
def letters (i : Nat) : UInt8 := if i < 2 ^ 31 then 0x61 else 0

/- The number of bytes does not fit in the int that is returned. -/
theorem vsprintf_letters :
    ∃ s, vsprintf letters (fun _ => 0) (2 ^ 31 + 1) (fun _ => 0) = some (-(2 ^ 31), s) ∧
      s.str.length = 2 ^ 31 := by
  have letter : ∀ i < 2 ^ 31, letters i = 0x61 := fun i less => if_pos less
  have string : Terminated letters (2 ^ 31) :=
    ⟨if_neg (Nat.lt_irrefl _), fun i less => by rw [letter i less]; decide⟩
  have inert : InertFrom letters (2 ^ 31) 0 := fun i less _ percent => by
    rw [letter i less] at percent
    cases percent
  obtain ⟨s, ran, str, _⟩ := @vsprintf_inert letters (fun _ => 0) (2 ^ 31) (2 ^ 31 + 1) (fun _ => 0)
    string (Nat.lt_succ_self _) inert
  refine ⟨s, ran, ?_⟩
  rw [str, slice_length]

end Printk

import Mathlib.Logic.Function.Basic
import Mathlib.Data.Nat.Bitwise

/- Bitmaps over 64-bit words. Bit i is bit i mod 64 of word i / 64. The memory behind a
   bitmap counts as further words. -/
namespace Bitmap

abbrev Words := Nat → BitVec 64

def bit (m : Words) (i : Nat) : Bool := (m (i / 64)).getLsbD (i % 64)

/- The mask of one bit, 1UL << i % 64. -/
def mask (i : Nat) : BitVec 64 := 1#64 <<< (i % 64)

def setBit (m : Words) (i : Nat) : Words := Function.update m (i / 64) (m (i / 64) ||| mask i)
def clearBit (m : Words) (i : Nat) : Words := Function.update m (i / 64) (m (i / 64) &&& ~~~mask i)
def flipBit (m : Words) (i : Nat) : Words := Function.update m (i / 64) (m (i / 64) ^^^ mask i)

def Clear (m : Words) (i n : Nat) : Prop := ∀ l < n, bit m (i + l) = false

instance (m : Words) (i n : Nat) : Decidable (Clear m i n) :=
  inferInstanceAs (Decidable (∀ l < n, _))

/- The n bits from bit k of word p on, the upper ones taken from the next word. -/
def window (m : Words) (p k n : Nat) : BitVec 64 :=
  (if k ≠ 0 then (m p >>> k) ||| (m (p + 1) <<< (64 - k)) else m p) &&& ((1#64 <<< n) - 1#64)

theorem mask_bit (i j : Nat) : (mask i).getLsbD (j % 64) = decide (i % 64 = j % 64) := by
  have inside : j % 64 < 64 := Nat.mod_lt _ (by decide)
  unfold mask
  rw [BitVec.getLsbD_shiftLeft]
  by_cases same : i % 64 = j % 64
  · simp [same]
    omega
  · rcases Nat.lt_or_gt_of_ne same with below | above
    · have positive : j % 64 - i % 64 ≠ 0 := by omega
      simp [same, positive]
    · simp [same, above]

/- A store to one word changes the bits that an operation on single bits changes there. -/
theorem bit_update (m : Words) (i j : Nat) (w : BitVec 64) (f : Bool → Bool)
    (inWord : ∀ k, i / 64 = k / 64 → w.getLsbD (k % 64) =
      if i = k then f (bit m k) else bit m k) :
    bit (Function.update m (i / 64) w) j = if i = j then f (bit m j) else bit m j := by
  by_cases word : j / 64 = i / 64
  · rw [bit, word, Function.update_self]
    exact inWord j word.symm
  · have other : i ≠ j := fun same => word (same ▸ rfl)
    rw [bit, Function.update_of_ne word, if_neg other, bit]

theorem same_bit {i k : Nat} (word : i / 64 = k / 64) : i % 64 = k % 64 ↔ i = k := by
  omega

@[simp] theorem bit_setBit (m : Words) (i j : Nat) :
    bit (setBit m i) j = if i = j then true else bit m j := by
  refine bit_update m i j _ (fun _ => true) ?_
  intro k word
  rw [BitVec.getLsbD_or, mask_bit, word]
  by_cases same : i = k
  · simp [same]
  · have apart : i % 64 ≠ k % 64 := fun h => same ((same_bit word).mp h)
    simp [same, apart, bit]

@[simp] theorem bit_clearBit (m : Words) (i j : Nat) :
    bit (clearBit m i) j = if i = j then false else bit m j := by
  refine bit_update m i j _ (fun _ => false) ?_
  intro k word
  have inside : k % 64 < 64 := Nat.mod_lt _ (by decide)
  rw [BitVec.getLsbD_and, BitVec.getLsbD_not, mask_bit, word]
  by_cases same : i = k
  · simp [same]
  · have apart : i % 64 ≠ k % 64 := fun h => same ((same_bit word).mp h)
    simp [same, apart, bit, inside]

@[simp] theorem bit_flipBit (m : Words) (i j : Nat) :
    bit (flipBit m i) j = if i = j then !bit m j else bit m j := by
  refine bit_update m i j _ (fun b => !b) ?_
  intro k word
  rw [BitVec.getLsbD_xor, mask_bit, word]
  by_cases same : i = k
  · simp [same, bit]
  · have apart : i % 64 ≠ k % 64 := fun h => same ((same_bit word).mp h)
    simp [same, apart, bit]

theorem low_bits (n l : Nat) (small : n < 64) :
    ((1#64 <<< n) - 1#64).getLsbD l = decide (l < n) := by
  have value : ((1#64 <<< n) - 1#64).toNat = 2 ^ n - 1 := by
    have bound : 2 ^ n < 2 ^ 64 := Nat.pow_lt_pow_right (by decide) small
    have positive : 0 < 2 ^ n := Nat.two_pow_pos n
    rw [BitVec.toNat_sub, BitVec.toNat_shiftLeft]
    simp only [BitVec.toNat_ofNat, Nat.shiftLeft_eq]
    rw [Nat.mod_eq_of_lt (show 1 < 2 ^ 64 by decide), Nat.one_mul, Nat.mod_eq_of_lt bound]
    omega
  rw [BitVec.getLsbD, value, Nat.testBit_two_pow_sub_one]

theorem window_bit (m : Words) (p k l : Nat) (inWord : k < 64) (inside : l < 64) :
    (if k ≠ 0 then (m p >>> k) ||| (m (p + 1) <<< (64 - k)) else m p).getLsbD l =
      bit m (64 * p + k + l) := by
  by_cases first : k = 0
  · subst first
    have word : (64 * p + l) / 64 = p := by omega
    have place : (64 * p + l) % 64 = l := by omega
    simp [bit, word, place]
  · rw [if_pos first, BitVec.getLsbD_or, BitVec.getLsbD_ushiftRight, BitVec.getLsbD_shiftLeft]
    by_cases low : k + l < 64
    · have word : (64 * p + k + l) / 64 = p := by omega
      have place : (64 * p + k + l) % 64 = k + l := by omega
      have early : l < 64 - k := by omega
      simp [bit, word, place, early]
    · have word : (64 * p + k + l) / 64 = p + 1 := by omega
      have place : (64 * p + k + l) % 64 = l - (64 - k) := by omega
      have late : ¬ l < 64 - k := by omega
      have beyond : (m p).getLsbD (k + l) = false := BitVec.getLsbD_of_ge _ _ (by omega)
      simp [bit, word, place, late, beyond, inside]

theorem window_zero_iff (m : Words) {p k n : Nat} (inWord : k < 64) (small : n < 64) :
    window m p k n = 0#64 ↔ Clear m (64 * p + k) n := by
  have bits : ∀ l, l < 64 → (window m p k n).getLsbD l =
      (bit m (64 * p + k + l) && decide (l < n)) := by
    intro l inside
    rw [window, BitVec.getLsbD_and, window_bit m p k l inWord inside, low_bits n l small]
  constructor
  · intro zero l below
    have at_l := bits l (by omega)
    rw [zero] at at_l
    simpa [below] using at_l.symm
  · intro clear
    apply BitVec.eq_of_getLsbD_eq
    intro l inside
    rw [bits l inside]
    by_cases below : l < n
    · simp [clear l below]
    · simp [below]

end Bitmap

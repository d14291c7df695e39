import Mathlib.Algebra.Group.Int.Defs
import Mathlib.Algebra.Group.Nat.Defs
import Mathlib.Logic.Function.Basic

/- Byte memories: total functions from addresses to bytes, with one block operation that
   copies a range of one memory over a range of another. -/
namespace ByteMemory

abbrev Memory := Nat → UInt8

def copy (source : Memory) (src : Nat) (target : Memory) (dst size : Nat) : Memory :=
  fun a => if dst ≤ a ∧ a < dst + size then source (src + (a - dst)) else target a

def fill (target : Memory) (dst size : Nat) (byte : UInt8) : Memory :=
  fun a => if dst ≤ a ∧ a < dst + size then byte else target a

def slice (memory : Memory) (start size : Nat) : List UInt8 :=
  (List.range size).map fun i => memory (start + i)

theorem copy_inside (source target : Memory) (src dst size i : Nat) (inside : i < size) :
    copy source src target dst size (dst + i) = source (src + i) := by
  have bounds : dst ≤ dst + i ∧ dst + i < dst + size := by omega
  simp only [copy, bounds, and_self, ↓reduceIte]
  congr 1
  omega

theorem copy_outside (source target : Memory) (src dst size a : Nat)
    (outside : a < dst ∨ dst + size ≤ a) :
    copy source src target dst size a = target a := by
  have bounds : ¬ (dst ≤ a ∧ a < dst + size) := by omega
  simp only [copy, bounds, ↓reduceIte]

@[simp] theorem copy_zero (source target : Memory) (src dst : Nat) :
    copy source src target dst 0 = target := by
  funext a
  exact copy_outside source target src dst 0 a (by omega)

@[simp] theorem slice_length (memory : Memory) (start size : Nat) :
    (slice memory start size).length = size := by
  simp [slice]

theorem slice_get (memory : Memory) (start size i : Nat) (inside : i < size) :
    (slice memory start size)[i]? = some (memory (start + i)) := by
  simp [slice, inside]

theorem slice_congr {first second : Memory} {start other size : Nat}
    (same : ∀ i, i < size → first (start + i) = second (other + i)) :
    slice first start size = slice second other size := by
  apply List.map_congr_left
  intro i member
  exact same i (List.mem_range.mp member)

theorem slice_append (memory : Memory) (start first second : Nat) :
    slice memory start (first + second) =
      slice memory start first ++ slice memory (start + first) second := by
  simp [slice, List.range_add, Nat.add_assoc]

theorem slice_copy (source target : Memory) (src dst size : Nat) :
    slice (copy source src target dst size) dst size = slice source src size :=
  slice_congr fun i inside => copy_inside source target src dst size i inside

end ByteMemory

import Mathlib.Algebra.Order.Group.Nat
import Mathlib.Order.Interval.Finset.Nat
import Q2os.FileEntry

/- FAT12 floppies: a table of 12-bit entries, packed without gaps, and the chains that it holds. -/
namespace Fat12
open ByteMemory
open Fat32 (getLittle getLittle_add getLittle_lt)

section iterates
variable {α : Type} {f : α → α} {a : α} {stop : α → Prop} {n : Nat}

/-- What is followed up to the first place where it stops goes nowhere twice. -/
theorem iterate_injective (going : ∀ k < n, ¬ stop (f^[k] a)) (stopped : stop (f^[n] a)) {i j : Nat}
    (less : i < j) (inside : j < n) : f^[i] a ≠ f^[j] a := by
  intro same
  have again : f^[n - j + i] a = f^[n] a := by
    calc f^[n - j + i] a = f^[n - j] (f^[i] a) := Function.iterate_add_apply f _ _ a
      _ = f^[n - j] (f^[j] a) := by rw [same]
      _ = f^[n - j + j] a := (Function.iterate_add_apply f _ _ a).symm
      _ = f^[n] a := by rw [Nat.sub_add_cancel (Nat.le_of_lt inside)]
  exact going (n - j + i) (by omega) (again ▸ stopped)

end iterates

section fields
variable (m : Memory) (a : Nat)

theorem getLittle_within {n k j : Nat} (inside : k + j ≤ n) :
    getLittle m a n / 256 ^ k % 256 ^ j = getLittle m (a + k) j := by
  obtain ⟨r, length⟩ := Nat.exists_eq_add_of_le inside
  have split : getLittle m a n = getLittle m a k + 256 ^ k *
      (getLittle m (a + k) j + 256 ^ j * getLittle m (a + k + j) r) := by
    rw [length, Nat.add_assoc, getLittle_add, getLittle_add]
  have low := getLittle_lt m a k
  have middle := getLittle_lt m (a + k) j
  rw [split, Nat.add_mul_div_left _ _ (Nat.pow_pos (by omega)), Nat.div_eq_of_lt low, Nat.zero_add,
    Nat.add_mul_mod_self_left, Nat.mod_eq_of_lt middle]

end fields

/- The layout of the loader's floppy: 512-byte sectors, one of them a cluster, the first of two tables
   of nine sectors behind the boot sector, 224 entries in the root directory. -/
def tableStart : Nat := 512 * 1
def tableSize : Nat := 512 * 9
def rootStart : Nat := 512 * (1 + 2 * 9)
def rootEntries : Nat := 224
def dataSector : Nat := 1 + 2 * 9 + 14
def diskSectors : Nat := 2880
def tableEntries : Nat := tableSize * 2 / 3

def tableEntry (image : Memory) (cluster : Nat) : Nat :=
  getLittle image tableStart tableSize / 2 ^ (12 * cluster) % 2 ^ 12

def clusterSector (cluster : Nat) : Nat := dataSector + (cluster - 2)

/-- The clusters of a file from the first one on, n of them; then comes an end mark. -/
structure Chain (image : Memory) (first n : Nat) : Prop where
  some_ : 0 < n
  data : ∀ k < n, 2 ≤ (tableEntry image)^[k] first ∧ clusterSector ((tableEntry image)^[k] first) < diskSectors
  marked : 0xff8 ≤ (tableEntry image)^[n] first

section tables
variable {image : Memory} {cluster first n : Nat}

theorem tableEntry_even {half : Nat} (inside : 2 * half < tableEntries) :
    tableEntry image (2 * half) = getLittle image (tableStart + 3 * half) 2 % 2 ^ 12 := by
  have places : tableEntries = 3072 := rfl
  have within := @getLittle_within image tableStart tableSize (3 * half) 2 (by unfold tableSize; omega)
  have shift : 2 ^ (12 * (2 * half)) = 256 ^ (3 * half) := by
    rw [show (256 : Nat) = 2 ^ 8 from rfl, ← Nat.pow_mul]
    congr 1
    omega
  rw [tableEntry, shift, ← within, Nat.mod_mod_of_dvd _ (by decide)]

theorem tableEntry_odd {half : Nat} (inside : 2 * half + 1 < tableEntries) :
    tableEntry image (2 * half + 1) = getLittle image (tableStart + (3 * half + 1)) 2 / 2 ^ 4 := by
  have places : tableEntries = 3072 := rfl
  have within := @getLittle_within image tableStart tableSize (3 * half + 1) 2 (by unfold tableSize; omega)
  have shift : 2 ^ (12 * (2 * half + 1)) = 256 ^ (3 * half + 1) * 2 ^ 4 := by
    rw [show (256 : Nat) = 2 ^ 8 from rfl, ← Nat.pow_mul, ← Nat.pow_add]
    congr 1
    omega
  rw [tableEntry, shift, ← Nat.div_div_eq_div_mul, ← within]
  omega

theorem tableEntry_lt (image : Memory) (cluster : Nat) : tableEntry image cluster < 2 ^ 12 :=
  Nat.mod_lt _ (by decide)

theorem next_cluster (k : Nat) :
    tableEntry image ((tableEntry image)^[k] first) = (tableEntry image)^[k + 1] first :=
  (Function.iterate_succ_apply' _ k first).symm

theorem Chain.inside (chain : Chain image first n) {k : Nat} (less : k < n) :
    2 ≤ (tableEntry image)^[k] first ∧ (tableEntry image)^[k] first ≤ 2848 := by
  have data := chain.data k less
  unfold clusterSector dataSector diskSectors at data
  omega

theorem Chain.going (chain : Chain image first n) : ∀ k < n, ¬ 0xff8 ≤ (tableEntry image)^[k] first := by
  intro k less
  have inside := chain.inside less
  omega

/- There are no more clusters in a chain than on the disk. -/
theorem Chain.short (chain : Chain image first n) : n ≤ 2847 := by
  have differ : Set.InjOn (fun k => (tableEntry image)^[k] first) (Finset.range n) := by
    intro i here j there same
    have i_lt := Finset.mem_range.mp here
    have j_lt := Finset.mem_range.mp there
    rcases Nat.lt_trichotomy i j with less | equal | more
    · exact absurd same (iterate_injective chain.going chain.marked less j_lt)
    · exact equal
    · exact absurd same.symm (iterate_injective chain.going chain.marked more i_lt)
  have inside : ∀ k ∈ Finset.range n, (tableEntry image)^[k] first ∈ Finset.Icc 2 2848 :=
    fun k here => Finset.mem_Icc.mpr (chain.inside (Finset.mem_range.mp here))
  have count := Finset.card_le_card_of_injOn _ inside differ
  rwa [Finset.card_range, Nat.card_Icc] at count

end tables

end Fat12

import Mathlib.Data.Finset.Card
import Mathlib.Order.Interval.Finset.Nat
import Q2os.FileWriting

/- Where clusters lie on the disk, and chains of the table that stay as they are while bytes
   outside the tables change. -/
namespace Fat32
open ByteMemory BlockProgram UserPointers

/- A cluster that holds data and has an entry. -/
structure Valid (fsbi : SbInfo) (cluster : Nat) : Prop where
  data : 2 ≤ cluster
  in_table : InTable fsbi cluster
  no_mark : cluster < 0x0ffffff8

theorem valid_small {fsbi : SbInfo} {cluster : Nat} (valid : Valid fsbi cluster) :
    cluster < 2 ^ 28 := by
  have below := valid.no_mark
  omega

theorem clusterSector_eq {fsbi : SbInfo} (layout : Layout fsbi) {cluster : Nat}
    (data : 2 ≤ cluster) (small : cluster < 2 ^ 28) :
    clusterSector fsbi cluster =
      fsbi.dataFirstsector + (cluster - 2) * fsbi.sectorPerCluster := by
  have no_wrap := layout.no_wrap
  have far : (cluster - 2) * fsbi.sectorPerCluster ≤ 2 ^ 28 * fsbi.sectorPerCluster :=
    Nat.mul_le_mul_right _ (by omega)
  have turn : (cluster + (2 ^ 64 - 2)) * fsbi.sectorPerCluster =
      (cluster - 2) * fsbi.sectorPerCluster + 2 ^ 64 * fsbi.sectorPerCluster := by
    rw [← Nat.add_mul]
    congr 1
    omega
  rw [clusterSector, turn, ← Nat.add_assoc, Nat.add_mul_mod_self_left]
  exact Nat.mod_eq_of_lt (by omega)

theorem cluster_disjoint {fsbi : SbInfo} (layout : Layout fsbi) {c c' a b : Nat} (data : 2 ≤ c)
    (data' : 2 ≤ c') (small : c < 2 ^ 28) (small' : c' < 2 ^ 28) (differ : c ≠ c')
    (inside : a < fsbi.bytesPerCluster) (inside' : b < fsbi.bytesPerCluster) :
    512 * clusterSector fsbi c + a ≠ 512 * clusterSector fsbi c' + b := by
  have bytes := layout.bytes
  rw [clusterSector_eq layout data small, clusterSector_eq layout data' small']
  rcases Nat.lt_or_gt_of_ne differ with less | more
  · have apart : (c - 2 + 1) * fsbi.sectorPerCluster ≤ (c' - 2) * fsbi.sectorPerCluster :=
      Nat.mul_le_mul_right _ (by omega)
    rw [Nat.add_mul, Nat.one_mul] at apart
    omega
  · have apart : (c' - 2 + 1) * fsbi.sectorPerCluster ≤ (c - 2) * fsbi.sectorPerCluster :=
      Nat.mul_le_mul_right _ (by omega)
    rw [Nat.add_mul, Nat.one_mul] at apart
    omega

theorem cluster_not_table {fsbi : SbInfo} (layout : Layout fsbi) {c a : Nat} (data : 2 ≤ c)
    (small : c < 2 ^ 28) :
    ¬ TableSector fsbi ((512 * clusterSector fsbi c + a) / 512) := by
  have tables := layout.tables
  rw [clusterSector_eq layout data small]
  unfold TableSector
  omega

def SameTables (fsbi : SbInfo) (w w' : World) : Prop :=
  ∀ x, TableSector fsbi (x / 512) → w'.disk x = w.disk x

theorem fatEntry_frame {fsbi : SbInfo} (layout : Layout fsbi) {w w' : World}
    (same : SameTables fsbi w w') {c : Nat} (inside : InTable fsbi c) :
    fatEntry fsbi w' c = fatEntry fsbi w c := by
  have word := inTable_word layout inside
  have sector : c / 128 < fsbi.sectorPerFAT := by
    unfold InTable at inside
    omega
  have whole : fsbi.sectorPerFAT ≤ fsbi.numFATs * fsbi.sectorPerFAT :=
    Nat.le_mul_of_pos_left _ layout.some_table
  simp only [fatEntry, word]
  congr 1
  apply getLittle_congr
  intro i within
  apply same
  unfold TableSector
  omega

theorem clusterAt_frame {fsbi : SbInfo} (layout : Layout fsbi) {w w' : World}
    (same : SameTables fsbi w w') {first n : Nat}
    (inside : ∀ i < n, InTable fsbi (clusterAt fsbi w first i)) :
    clusterAt fsbi w' first n = clusterAt fsbi w first n := by
  induction n with
  | zero => rfl
  | succ n ih =>
    rw [clusterAt_succ, clusterAt_succ, ih fun i less => inside i (by omega)]
    exact fatEntry_frame layout same (inside n (by omega))

/-- A chain of len clusters behind a first one, ended by a mark. -/
structure Chain (fsbi : SbInfo) (w : World) (first len : Nat) : Prop where
  valid : ∀ i < len, Valid fsbi (clusterAt fsbi w first i)
  ends : 0x0ffffff8 ≤ clusterAt fsbi w first len

/- The clusters of a chain differ: a repeated one would never come to the mark. -/
theorem Chain.injective {fsbi : SbInfo} {w : World} {first len : Nat}
    (chain : Chain fsbi w first len) {i j : Nat} (less : i < j) (within : j < len) :
    clusterAt fsbi w first i ≠ clusterAt fsbi w first j := by
  intro same
  have shifted : clusterAt fsbi w first (i + (len - j)) = clusterAt fsbi w first len := by
    have whole : len = j + (len - j) := by omega
    rw [clusterAt_add, same, ← clusterAt_add, ← whole]
  have earlier := (chain.valid (i + (len - j)) (by omega)).no_mark
  have mark := chain.ends
  omega

theorem chain_short {fsbi : SbInfo} {w : World} {first len : Nat}
    (chain : Chain fsbi w first len) : len ≤ 2 ^ 28 := by
  have within : ∀ k ∈ Finset.range len, clusterAt fsbi w first k ∈ Finset.range (2 ^ 28) := by
    intro k member
    exact Finset.mem_range.mpr (valid_small (chain.valid k (Finset.mem_range.mp member)))
  have counted := Finset.card_le_card_of_injOn _ within fun k member l member' same => by
    have less := Finset.mem_range.mp (Finset.mem_coe.mp member)
    have less' := Finset.mem_range.mp (Finset.mem_coe.mp member')
    rcases Nat.lt_trichotomy k l with before | equal | behind
    · exact absurd same (chain.injective before less')
    · exact equal
    · exact absurd same.symm (chain.injective behind less)
  rw [Finset.card_range, Finset.card_range] at counted
  exact counted

theorem Chain.frame {fsbi : SbInfo} (layout : Layout fsbi) {w w' : World} {first len : Nat}
    (chain : Chain fsbi w first len) (same : SameTables fsbi w w') :
    (∀ i ≤ len, clusterAt fsbi w' first i = clusterAt fsbi w first i) ∧
      Chain fsbi w' first len := by
  have links : ∀ i ≤ len, clusterAt fsbi w' first i = clusterAt fsbi w first i := fun i within =>
    clusterAt_frame layout same fun k less => (chain.valid k (by omega)).in_table
  refine ⟨links, fun i less => ?_, ?_⟩
  · rw [links i (by omega)]
    exact chain.valid i less
  · rw [links len (Nat.le_refl len)]
    exact chain.ends

end Fat32

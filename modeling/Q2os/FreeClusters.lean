import Q2os.TableEntries

/- What FAT32_find_available_cluster takes for free: the scan is over whole sectors of the table,
   which have more entries than there are clusters. -/
namespace FreeClusters
open ByteMemory BlockProgram Fat32 TableEntries

def InData (fsbi : SbInfo) (c : Nat) : Prop :=
  2 ≤ c ∧ fsbi.dataFirstsector + (c - 1) * fsbi.sectorPerCluster ≤ fsbi.startSector + fsbi.sectorCount

def Free (fsbi : SbInfo) (w : World) (c : Nat) : Prop :=
  InTable fsbi c ∧ fatEntry fsbi w c = 0

/-- The smallest free cluster of the data area, and 0 where there is none. -/
def Smallest (fsbi : SbInfo) (w : World) (r : Nat) : Prop :=
  (Free fsbi w r ∧ InData fsbi r ∧ ∀ c < r, ¬ (Free fsbi w c ∧ InData fsbi c)) ∨
  (r = 0 ∧ ∀ c, ¬ (Free fsbi w c ∧ InData fsbi c))

/-- Every free entry without a cluster comes behind a free one with a cluster; or entry 0 is free
    and no cluster is. -/
def NoStray (fsbi : SbInfo) (w : World) : Prop :=
  (∀ c, Free fsbi w c → ¬ InData fsbi c → ∃ d < c, Free fsbi w d ∧ InData fsbi d) ∨
  (Free fsbi w 0 ∧ ∀ c, ¬ (Free fsbi w c ∧ InData fsbi c))

section search
variable {fsbi : SbInfo} {w : World} {a : Nat}

theorem FirstFree.before (first : FirstFree fsbi w a) {c : Nat} (free : Free fsbi w c) : a ≤ c := by
  by_contra earlier
  exact first.first c (by omega) free.2

theorem smallest_first_iff (first : FirstFree fsbi w a) : Smallest fsbi w a ↔ NoStray fsbi w := by
  have free : Free fsbi w a := ⟨first.in_table, first.free⟩
  constructor
  · intro smallest
    rcases smallest with cluster | none_
    · left
      intro c other stray
      refine ⟨a, Nat.lt_of_le_of_ne (FirstFree.before first other) fun same => ?_, free, cluster.2.1⟩
      exact stray (same ▸ cluster.2.1)
    · exact Or.inr ⟨none_.1 ▸ free, none_.2⟩
  · intro either
    rcases either with behind | none_
    · left
      refine ⟨free, ?_, fun c less both => first.first c less both.1.2⟩
      by_contra stray
      obtain ⟨d, less, other, _⟩ := behind a free stray
      exact first.first d less other.2
    · have zero : a = 0 := Nat.le_zero.mp (FirstFree.before first none_.1)
      exact Or.inr ⟨zero, none_.2⟩

end search

/-- FAT32_find_available_cluster returns the smallest free cluster exactly where no free entry of
    the table lacks a cluster before it. The tables have no more entries than an int counts. -/
theorem find_smallest_iff (fsbi : SbInfo) (w : World) (size : fsbi.sectorPerFAT ≤ 2 ^ 24) :
    (∃ r, run (FAT32FindAvailableCluster fsbi) w = some (r, w) ∧ Smallest fsbi w r) ↔
      NoStray fsbi w := by
  obtain ⟨a, found, free⟩ := @run_findAvailable fsbi size w fsbi.sectorPerFAT 0 (by omega)
    fun c none_ => by omega
  have answer : (∃ r, run (FAT32FindAvailableCluster fsbi) w = some (r, w) ∧ Smallest fsbi w r) ↔
      Smallest fsbi w a := by
    constructor
    · intro some_answer
      obtain ⟨r, ran, smallest⟩ := some_answer
      have same : (r, w) = (a, w) := Option.some.inj (ran.symm.trans found)
      exact (Prod.mk.inj same).1 ▸ smallest
    · exact fun smallest => ⟨a, found, smallest⟩
  rw [answer]
  rcases free with first | used
  · exact smallest_first_iff first
  · have full : ∀ c, ¬ Free fsbi w c := fun c free => used.2 c free.1 free.2
    constructor
    · intro _
      exact Or.inl fun c free => absurd free (full c)
    · intro _
      exact Or.inr ⟨used.1, fun c both => full c both.1⟩

/- The four clusters of a volume of eight sectors are in use, the rest of the table is 0. -/
def usedDisk : World where
  disk := fun i => if 1024 ≤ i ∧ i < 1048 then 0xff else 0
  memory := zeros
  fresh := []
  written := []
  touched := []

theorem find_smallest_iff_used :
    (∃ r, run (FAT32FindAvailableCluster twoCopies) usedDisk = some (r, usedDisk) ∧
      Smallest twoCopies usedDisk r) ↔ NoStray twoCopies usedDisk :=
  find_smallest_iff twoCopies usedDisk (by decide)

theorem find_behind_volume : ¬ ∀ (fsbi : SbInfo) (w : World), fsbi.sectorPerFAT ≤ 2 ^ 24 →
    ∃ r, run (FAT32FindAvailableCluster fsbi) w = some (r, w) ∧ Smallest fsbi w r := by
  intro every
  obtain ⟨r, ran, smallest⟩ := every twoCopies usedDisk (by decide)
  have found : (run (FAT32FindAvailableCluster twoCopies) usedDisk).map (·.1) = some 6 := by
    decide +kernel
  rw [ran] at found
  have six : r = 6 := Option.some.inj found
  rcases smallest with cluster | none_
  · have inside := cluster.2.1.2
    rw [six] at inside
    exact absurd inside (by decide)
  · omega

end FreeClusters

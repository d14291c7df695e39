import Q2os.ListedNames
import Q2os.Chains

/- The directory entry of a file on the disk: what FAT32_lookup makes an inode of, and what
   fat32_write_inode changes of it. -/
namespace Fat32
open ByteMemory BlockProgram NameMatching

theorem setLittle_shift {m m' : Memory} {k a value n i : Nat} (same : m i = m' (k + i)) :
    setLittle m a value n i = setLittle m' (k + a) value n (k + i) := by
  induction n generalizing m m' a value with
  | zero => exact same
  | succ n ih =>
    apply ih
    by_cases here : i = a
    · rw [here, Function.update_self, Function.update_self]
    · rw [Function.update_of_ne here, Function.update_of_ne (by omega), same]

theorem setLittle_same (m : Memory) (a n : Nat) : setLittle m a (getLittle m a n) n = m := by
  induction n generalizing a with
  | zero => rfl
  | succ n ih =>
    have small := (m a).toNat_lt
    have byte : UInt8.ofNat ((m a).toNat + 256 * getLittle m (a + 1) n) = m a := by
      apply UInt8.toNat_inj.mp
      rw [UInt8.toNat_ofNat']
      omega
    have rest : ((m a).toNat + 256 * getLittle m (a + 1) n) / 256 = getLittle m (a + 1) n := by
      omega
    rw [getLittle, setLittle, byte, rest, Function.update_eq_self]
    exact ih (a + 1)

theorem getLittle_add (m : Memory) (a n k : Nat) :
    getLittle m a (n + k) = getLittle m a n + 256 ^ n * getLittle m (a + n) k := by
  induction n generalizing a with
  | zero => rw [Nat.zero_add, getLittle, Nat.pow_zero, Nat.one_mul, Nat.zero_add, Nat.add_zero]
  | succ n ih =>
    have place : a + 1 + n = a + (n + 1) := by omega
    rw [Nat.add_right_comm, getLittle, getLittle, ih, place, Nat.pow_succ', Nat.mul_add,
      ← Nat.mul_assoc, Nat.add_assoc]

theorem wordAt_getLittle (v : View) (m : Memory) (p : Int) (a : Nat)
    (low : v p = m a) (high : v (p + 1) = m (a + 1)) : wordAt v p = getLittle m a 2 := by
  simp only [wordAt, byteAt, getLittle, low, high, Nat.mul_zero, Nat.add_zero]

/-- The file FAT32_lookup makes of the entry at place idx of a cluster. -/
def recorded (fsbi : SbInfo) (w : World) (location idx : Nat) : Found :=
  foundAt (viewOf fsbi w zeros zeros location) location (32 * idx)

theorem recorded_disk {fsbi : SbInfo} {w w' : World} (same : w'.disk = w.disk)
    (location idx : Nat) : recorded fsbi w' location idx = recorded fsbi w location idx := by
  have sectors : w'.sectors = w.sectors := by
    funext sector i
    simp only [World.sectors, same]
  unfold recorded viewOf
  rw [sectors]

theorem directorySector_eq {fsbi : SbInfo} (layout : Layout fsbi) {cluster : Nat}
    (data : 2 ≤ cluster) (small : cluster < 2 ^ 28) :
    directorySector fsbi cluster = clusterSector fsbi cluster := by
  have turn : (cluster + (2 ^ 32 - 2)) % 2 ^ 32 = cluster - 2 := by omega
  have eq := clusterSector_eq layout data small
  have no_wrap := layout.no_wrap
  have far : (cluster - 2) * fsbi.sectorPerCluster ≤ 2 ^ 28 * fsbi.sectorPerCluster :=
    Nat.mul_le_mul_right _ (by omega)
  rw [directorySector, turn, eq]
  exact Nat.mod_eq_of_lt (by omega)

theorem viewOf_byte {fsbi : SbInfo} (layout : Layout fsbi) (w : World) (before block : Memory)
    {cluster a : Nat} (data : 2 ≤ cluster) (small : cluster < 2 ^ 28)
    (inside : a < fsbi.bytesPerCluster) :
    viewOf fsbi w before block cluster a = w.disk (512 * clusterSector fsbi cluster + a) := by
  have bytes := layout.bytes
  rw [viewOf_inside fsbi w before block cluster (by omega) (by omega),
    directorySector_eq layout data small, Int.toNat_natCast]

/- Every heap shows the same entry. -/
theorem foundAt_recorded {fsbi : SbInfo} (layout : Layout fsbi) (w : World)
    (before block : Memory) {location idx : Nat} (room : 32 * idx + 32 ≤ fsbi.bytesPerCluster) :
    foundAt (viewOf fsbi w before block location) location (32 * idx) =
      recorded fsbi w location idx := by
  have bytes := layout.bytes
  apply foundAt_congr
  intro i low high
  rw [viewOf_inside fsbi w before block location (by omega) (by omega),
    viewOf_inside fsbi w zeros zeros location (by omega) (by omega)]

theorem wordAt_disk {fsbi : SbInfo} (layout : Layout fsbi) (w : World) (before block : Memory)
    {cluster a : Nat} {p : Int} (place : p = a) (data : 2 ≤ cluster) (small : cluster < 2 ^ 28)
    (inside : a + 1 < fsbi.bytesPerCluster) :
    wordAt (viewOf fsbi w before block cluster) p =
      getLittle w.disk (512 * clusterSector fsbi cluster + a) 2 := by
  rw [place]
  apply wordAt_getLittle
  · exact viewOf_byte layout w before block data small (by omega)
  · exact viewOf_byte layout w before block data small inside

/-- The entry of a regular file, its first cluster and size as recorded. -/
structure Regular (fsbi : SbInfo) (w : World) (location idx first : Nat) : Prop where
  cluster : Valid fsbi location
  room : 32 * idx + 32 ≤ fsbi.bytesPerCluster
  short_entry : dirAttr (viewOf fsbi w zeros zeros location) (32 * idx) ≠ attrLongName
  attributes : (recorded fsbi w location idx).attributes = attrFile
  started : (recorded fsbi w location idx).inode.firstCluster = first

theorem Regular.plain {fsbi : SbInfo} {w : World} {location idx first : Nat}
    (regular : Regular fsbi w location idx first) :
    isDirectory (viewOf fsbi w zeros zeros location) (32 * idx) = false ∧
      dirFstClusHI (viewOf fsbi w zeros zeros location) (32 * idx) / 2 ^ 12 = 0 := by
  have attributes := regular.attributes
  simp only [recorded, foundAt] at attributes
  by_cases directory : isDirectory (viewOf fsbi w zeros zeros location) (32 * idx) = true
  · rw [if_pos directory] at attributes
    exact absurd attributes (by decide)
  · rw [if_neg directory] at attributes
    refine ⟨Bool.not_eq_true _ ▸ directory, ?_⟩
    by_contra device
    rw [if_pos device] at attributes
    exact absurd attributes (by decide)

theorem Regular.words {fsbi : SbInfo} (layout : Layout fsbi) {w : World}
    {location idx first : Nat} (regular : Regular fsbi w location idx first) :
    getLittle w.disk (512 * clusterSector fsbi location + 32 * idx + 20) 2 = first / 2 ^ 16 ∧
      getLittle w.disk (512 * clusterSector fsbi location + 32 * idx + 26) 2 = first % 2 ^ 16 := by
  have room := regular.room
  have data := regular.cluster.data
  have small := valid_small regular.cluster
  have high : dirFstClusHI (viewOf fsbi w zeros zeros location) (32 * idx) =
      getLittle w.disk (512 * clusterSector fsbi location + (32 * idx + 20)) 2 :=
    wordAt_disk layout w zeros zeros (by omega) data small (by omega)
  have low : dirFstClusLO (viewOf fsbi w zeros zeros location) (32 * idx) =
      getLittle w.disk (512 * clusterSector fsbi location + (32 * idx + 26)) 2 :=
    wordAt_disk layout w zeros zeros (by omega) data small (by omega)
  have high_small := getLittle_lt w.disk (512 * clusterSector fsbi location + (32 * idx + 20)) 2
  have low_small := getLittle_lt w.disk (512 * clusterSector fsbi location + (32 * idx + 26)) 2
  have started := regular.started
  have plain := regular.plain.2
  simp only [recorded, foundAt] at started plain
  rw [high] at plain
  rw [high, low] at started
  simp only [Nat.add_assoc] at *
  omega

/- Nothing but the size changes where the first cluster is the recorded one. -/
theorem updateDirectory_size {buf : Memory} {at_ : Nat} {inode : IndexNode}
    (small : inode.firstCluster < 2 ^ 28)
    (high : getLittle buf (at_ + 20) 2 = inode.firstCluster / 2 ^ 16)
    (low : getLittle buf (at_ + 26) 2 = inode.firstCluster % 2 ^ 16) :
    updateDirectory buf at_ inode = setLittle buf (at_ + 28) inode.fileSize 4 := by
  generalize made : setLittle buf (at_ + 28) inode.fileSize 4 = buf'
  have kept : ∀ i, i < at_ + 28 → buf' i = buf i := by
    intro i before
    rw [← made]
    exact setLittle_outside (Or.inl before)
  have high' : getLittle buf' (at_ + 20) 2 = inode.firstCluster / 2 ^ 16 := by
    rw [← high]
    exact getLittle_congr fun i within => kept _ (by omega)
  have low' : getLittle buf' (at_ + 26) 2 = inode.firstCluster % 2 ^ 16 := by
    rw [← low]
    exact getLittle_congr fun i within => kept _ (by omega)
  have no_flags : inode.firstCluster / 2 ^ 16 / 2 ^ 12 = 0 := by omega
  simp only [updateDirectory, made]
  rw [← low', setLittle_same, high', no_flags, Nat.zero_mul, Nat.zero_or, ← high', setLittle_same]

/-- fat32_write_inode changes the size in the entry of a regular file, and nothing else. -/
theorem putEntry_size {fsbi : SbInfo} (layout : Layout fsbi) {w : World} {inode : IndexNode}
    (regular : Regular fsbi w inode.dentryLocation inode.dentryPosition inode.firstCluster) :
    putEntry fsbi inode w.disk = setLittle w.disk (entryByte fsbi inode + 28) inode.fileSize 4 := by
  have bytes := layout.bytes
  have room := regular.room
  have data := regular.cluster.data
  have located : ¬ inode.dentryLocation = 0 := by omega
  have small : inode.firstCluster < 2 ^ 28 := by
    rw [← regular.started]
    exact Nat.mod_lt _ (by decide)
  obtain ⟨high, low⟩ := regular.words layout
  unfold putEntry entryByte
  rw [if_neg located]
  generalize clusterSector fsbi inode.dentryLocation = sector at high low ⊢
  have buffer : ∀ i < fsbi.bytesPerCluster,
      clusterBuffer fsbi (fun i => w.disk (512 * sector + i)) i = w.disk (512 * sector + i) :=
    fun i within => clusterBuffer_byte layout w sector within
  have field : ∀ k < 32, ∀ n, k + n ≤ 32 →
      getLittle (clusterBuffer fsbi fun i => w.disk (512 * sector + i))
        (32 * inode.dentryPosition + k) n =
      getLittle w.disk (512 * sector + 32 * inode.dentryPosition + k) n := by
    intro k within n inside
    apply getLittle_congr
    intro i below
    rw [buffer _ (by omega)]
    simp only [Nat.add_assoc]
  rw [← field 20 (by omega) 2 (by omega)] at high
  rw [← field 26 (by omega) 2 (by omega)] at low
  dsimp only
  rw [updateDirectory_size small high low]
  funext x
  by_cases inside : 512 * sector ≤ x ∧ x < 512 * sector + 512 * fsbi.sectorPerCluster
  · obtain ⟨i, rfl⟩ : ∃ i, x = 512 * sector + i := ⟨x - 512 * sector, by omega⟩
    have byte := buffer i (by omega)
    rw [copy_inside _ _ _ _ _ _ (by omega), Nat.zero_add, setLittle_shift byte]
    simp only [Nat.add_assoc]
  · rw [copy_outside _ _ _ _ _ _ (by omega), setLittle_outside (by omega)]

theorem recorded_size {fsbi : SbInfo} (layout : Layout fsbi) (w : World) {location idx : Nat}
    (data : 2 ≤ location) (small : location < 2 ^ 28) (room : 32 * idx + 32 ≤ fsbi.bytesPerCluster) :
    (recorded fsbi w location idx).inode.fileSize =
      getLittle w.disk (512 * clusterSector fsbi location + (32 * idx + 28)) 4 := by
  have low := @wordAt_disk fsbi layout w zeros zeros location (32 * idx + 28) (32 * idx + 28)
    (by omega) data small (by omega)
  have high := @wordAt_disk fsbi layout w zeros zeros location (32 * idx + 30) (32 * idx + 30)
    (by omega) data small (by omega)
  have place : 512 * clusterSector fsbi location + (32 * idx + 28) + 2 =
      512 * clusterSector fsbi location + (32 * idx + 30) := by omega
  have base : 256 ^ 2 = 2 ^ 16 := by decide
  simp only [recorded, foundAt]
  rw [dirFileSize, low, high, getLittle_add _ _ 2 2, place, base]

/-- The same entry with another size. -/
theorem recorded_resized {fsbi : SbInfo} (layout : Layout fsbi) {w w' : World}
    {location idx : Nat} (data : 2 ≤ location) (small : location < 2 ^ 28)
    (room : 32 * idx + 32 ≤ fsbi.bytesPerCluster)
    (same : ∀ a, 32 * idx ≤ a → a < 32 * idx + 28 →
      w'.disk (512 * clusterSector fsbi location + a) =
        w.disk (512 * clusterSector fsbi location + a)) :
    recorded fsbi w' location idx =
      { recorded fsbi w location idx with
        inode := { (recorded fsbi w location idx).inode with
          fileSize := getLittle w'.disk (512 * clusterSector fsbi location + (32 * idx + 28)) 4 } } := by
  have byte : ∀ k < 28, byteAt (viewOf fsbi w' zeros zeros location) (32 * idx + (k : Nat)) =
      byteAt (viewOf fsbi w zeros zeros location) (32 * idx + (k : Nat)) := by
    intro k within
    have place : (32 * (idx : Int) + (k : Nat)) = ((32 * idx + k : Nat) : Int) := by omega
    rw [byteAt, byteAt, place, viewOf_byte layout w' zeros zeros data small (by omega),
      viewOf_byte layout w zeros zeros data small (by omega), same _ (by omega) (by omega)]
  have word : ∀ k < 27, wordAt (viewOf fsbi w' zeros zeros location) (32 * idx + (k : Nat)) =
      wordAt (viewOf fsbi w zeros zeros location) (32 * idx + (k : Nat)) := by
    intro k within
    have next := byte (k + 1) (by omega)
    rw [Int.natCast_add, ← Int.add_assoc] at next
    rw [wordAt, wordAt, byte k (by omega)]
    exact congrArg _ (congrArg _ next)
  have attr : dirAttr (viewOf fsbi w' zeros zeros location) (32 * idx) =
      dirAttr (viewOf fsbi w zeros zeros location) (32 * idx) := byte 11 (by omega)
  have high : dirFstClusHI (viewOf fsbi w' zeros zeros location) (32 * idx) =
      dirFstClusHI (viewOf fsbi w zeros zeros location) (32 * idx) := word 20 (by omega)
  have low : dirFstClusLO (viewOf fsbi w' zeros zeros location) (32 * idx) =
      dirFstClusLO (viewOf fsbi w zeros zeros location) (32 * idx) := word 26 (by omega)
  have directory : isDirectory (viewOf fsbi w' zeros zeros location) (32 * idx) =
      isDirectory (viewOf fsbi w zeros zeros location) (32 * idx) := by
    unfold isDirectory
    rw [attr]
  have size := recorded_size layout w' data small room
  simp only [recorded, foundAt] at size
  unfold recorded foundAt
  rw [directory, high, low, size]

theorem Regular.resized {fsbi : SbInfo} (layout : Layout fsbi) {w w' : World}
    {location idx first : Nat} (regular : Regular fsbi w location idx first)
    (same : ∀ a, 32 * idx ≤ a → a < 32 * idx + 28 →
      w'.disk (512 * clusterSector fsbi location + a) =
        w.disk (512 * clusterSector fsbi location + a)) :
    Regular fsbi w' location idx first := by
  have data := regular.cluster.data
  have small := valid_small regular.cluster
  have room := regular.room
  have resized := recorded_resized layout data small room same
  have place : (32 * (idx : Int) + 11) = ((32 * idx + 11 : Nat) : Int) := by omega
  have attr : dirAttr (viewOf fsbi w' zeros zeros location) (32 * idx) =
      dirAttr (viewOf fsbi w zeros zeros location) (32 * idx) := by
    rw [dirAttr, dirAttr, byteAt, byteAt, place, viewOf_byte layout w' zeros zeros data small
      (by omega), viewOf_byte layout w zeros zeros data small (by omega),
      same _ (by omega) (by omega)]
  refine ⟨regular.cluster, room, ?_, ?_, ?_⟩
  · rw [attr]
    exact regular.short_entry
  · rw [resized]
    exact regular.attributes
  · rw [resized]
    exact regular.started

end Fat32

import Q2os.FileReading

/- FAT32_write where all of the bytes go into the cluster of the position: one transfer of
   that cluster, and the entry of the file if it grew. -/
namespace Fat32
open ByteMemory BlockProgram UserMemory UserPointers

def putEntry (fsbi : SbInfo) (inode : IndexNode) (disk : Memory) : Memory :=
  if inode.dentryLocation = 0 then disk
  else
    let sector := clusterSector fsbi inode.dentryLocation
    let buf := clusterBuffer fsbi fun i => disk (512 * sector + i)
    copy (updateDirectory buf (32 * inode.dentryPosition) inode) 0 disk (512 * sector)
      (512 * fsbi.sectorPerCluster)

def entryByte (fsbi : SbInfo) (inode : IndexNode) : Nat :=
  512 * clusterSector fsbi inode.dentryLocation + 32 * inode.dentryPosition

def entryWritten (fsbi : SbInfo) (inode : IndexNode) (w : World) : World :=
  World.putSectors { w with fresh := w.fresh.tail } (clusterSector fsbi inode.dentryLocation)
    fsbi.sectorPerCluster (updateDirectory (clusterBuffer fsbi
      (w.sectors (clusterSector fsbi inode.dentryLocation))) (32 * inode.dentryPosition) inode)

theorem putSectors_memory (w : World) (sector count : Nat) (data : Memory) :
    (w.putSectors sector count data).memory = w.memory := rfl

theorem entryWritten_memory (fsbi : SbInfo) (inode : IndexNode) (w : World) :
    (entryWritten fsbi inode w).memory = w.memory := by
  unfold entryWritten
  rw [putSectors_memory]

theorem run_fat32WriteInode (fsbi : SbInfo) (inode : IndexNode) (w : World) :
    ∃ w', run (fat32WriteInode fsbi inode) w = some ((), w') ∧
      w'.disk = putEntry fsbi inode w.disk ∧ w'.memory = w.memory := by
  unfold fat32WriteInode putEntry
  by_cases root : inode.dentryLocation = 0
  · rw [if_pos root, if_pos root]
    exact ⟨w, rfl, rfl, rfl⟩
  · rw [if_neg root, if_neg root]
    refine ⟨entryWritten fsbi inode w, ?_, rfl, entryWritten_memory fsbi inode w⟩
    simp only [run_bind, alloc, run, Option.bind_some, readSectors, writeSectors, received,
      Option.getD_some]
    rfl

theorem updateDirectory_outside (buf : Memory) (at_ : Nat) (inode : IndexNode) {i : Nat}
    (outside : i < at_ + 20 ∨ at_ + 32 ≤ i) : updateDirectory buf at_ inode i = buf i := by
  unfold updateDirectory
  rw [setLittle_outside (by omega), setLittle_outside (by omega), setLittle_outside (by omega)]

/- Only the last twelve bytes of the entry change. -/
theorem putEntry_outside {fsbi : SbInfo} (layout : Layout fsbi) (inode : IndexNode) (disk : Memory)
    {x : Nat} (outside : inode.dentryLocation = 0 ∨ x < entryByte fsbi inode + 20 ∨
      entryByte fsbi inode + 32 ≤ x) : putEntry fsbi inode disk x = disk x := by
  have bytes := layout.bytes
  unfold putEntry
  by_cases root : inode.dentryLocation = 0
  · rw [if_pos root]
  · rw [if_neg root]
    unfold entryByte at outside
    generalize clusterSector fsbi inode.dentryLocation = sector at outside ⊢
    by_cases inside : 512 * sector ≤ x ∧ x < 512 * sector + 512 * fsbi.sectorPerCluster
    · obtain ⟨i, rfl⟩ : ∃ i, x = 512 * sector + i := ⟨x - 512 * sector, by omega⟩
      rw [copy_inside _ _ _ _ _ _ (by omega), Nat.zero_add, updateDirectory_outside _ _ _ (by omega)]
      have byte := copy_inside (fun i => disk (512 * sector + i)) zeros 0 0
        (512 * fsbi.sectorPerCluster) i (by omega)
      rw [Nat.zero_add] at byte
      exact byte
    · exact copy_outside _ _ _ _ _ _ (by omega)

def grown (inode : IndexNode) (position n : Nat) : IndexNode :=
  if position + n > inode.fileSize then { inode with fileSize := position + n } else inode

def written (fsbi : SbInfo) (inode : IndexNode) (position n : Nat) (disk : Memory) : Memory :=
  if position + n > inode.fileSize then putEntry fsbi (grown inode position n) disk else disk

theorem run_copyIn {fsbi : SbInfo} (w : World) (buffer : Memory) {offset buf n : Nat}
    (room : offset + n ≤ fsbi.bytesPerCluster) (source : Destination buf n) :
    ∃ w', run (copyIn fsbi buffer offset buf n) w =
        some (copy w.memory buf buffer offset n, w') ∧ w'.disk = w.disk ∧ w'.memory = w.memory := by
  have size := pieceSize_destination source
  by_cases nothing : n = 0
  · refine ⟨w, ?_, rfl, rfl⟩
    unfold copyIn
    rw [if_pos (size.trans nothing), nothing, copy_zero]
    rfl
  · have inside : Inside fsbi offset n := ⟨by omega, by omega⟩
    refine ⟨w.touch buf n, ?_, rfl, rfl⟩
    unfold copyIn
    rw [if_neg (by rw [size]; exact nothing), size]
    simp only [Int.toNat_natCast, if_pos inside]
    rfl

theorem cluster_replaced (w : World) (sector offset buf n count : Nat)
    (room : offset + n ≤ 512 * count) :
    copy (copy w.memory buf (copy (w.sectors sector) 0 zeros 0 (512 * count)) offset n) 0 w.disk
      (512 * sector) (512 * count) = copy w.memory buf w.disk (512 * sector + offset) n := by
  funext x
  by_cases inside : 512 * sector ≤ x ∧ x < 512 * sector + 512 * count
  · obtain ⟨i, rfl⟩ : ∃ i, x = 512 * sector + i := ⟨x - 512 * sector, by omega⟩
    rw [copy_inside _ _ _ _ _ _ (by omega), Nat.zero_add]
    by_cases new : offset ≤ i ∧ i < offset + n
    · obtain ⟨k, rfl⟩ : ∃ k, i = offset + k := ⟨i - offset, by omega⟩
      rw [copy_inside _ _ _ _ _ _ (by omega), ← Nat.add_assoc, copy_inside _ _ _ _ _ _ (by omega)]
    · have old := copy_outside w.memory (copy (w.sectors sector) 0 zeros 0 (512 * count)) buf offset
        n i (by omega)
      have kept := copy_outside w.memory w.disk buf (512 * sector + offset) n (512 * sector + i)
        (by omega)
      have byte := copy_inside (w.sectors sector) zeros 0 0 (512 * count) i (by omega)
      rw [Nat.zero_add] at byte
      rw [old, byte, kept]
      rfl
  · rw [copy_outside _ _ _ _ _ _ (by omega), copy_outside _ _ _ _ _ _ (by omega)]

/- What a write of one piece leaves: the bytes at their place, the entry of a file that grew. -/
structure Wrote (fsbi : SbInfo) (w w' : World) (inode : IndexNode) (place buf position n : Nat) :
    Prop where
  memory : w'.memory = w.memory
  disk : w'.disk = written fsbi inode position n (copy w.memory buf w.disk place n)

theorem run_finish (fsbi : SbInfo) (w : World) (inode : IndexNode) {position n : Nat}
    (word : position + n < 2 ^ 64) (retval : Int) :
    ∃ w', run (if (((position + n : Nat) : Int) % 2 ^ 64).toNat > inode.fileSize then do
        let inode := { inode with
          fileSize := (((position + n : Nat) : Int) % 2 ^ 64).toNat }
        fat32WriteInode fsbi inode
        return (retval, inode, ((position + n : Nat) : Int))
      else return (retval, inode, ((position + n : Nat) : Int))) w =
        some ((retval, grown inode position n, ((position + n : Nat) : Int)), w') ∧
      w'.memory = w.memory ∧ w'.disk = written fsbi inode position n w.disk := by
  have size : (((position + n : Nat) : Int) % 2 ^ 64).toNat = position + n := by omega
  rw [size]
  unfold written grown
  by_cases grows : position + n > inode.fileSize
  · obtain ⟨w', ran, disk, memory⟩ :=
      run_fat32WriteInode fsbi { inode with fileSize := position + n } w
    refine ⟨w', ?_, memory, ?_⟩
    · simp only [if_pos grows, run_bind, ran, Option.bind_some]
      rfl
    · rw [if_pos grows, if_pos grows]
      exact disk
  · refine ⟨w, ?_, rfl, ?_⟩
    · rw [if_neg grows, if_neg grows]
      rfl
    · rw [if_neg grows]

/- One round of the loop that reads the cluster first and writes all of the bytes. -/
theorem run_onePiece {fsbi : SbInfo} (layout : Layout fsbi) (w : World)
    {fuel cluster offset buf n : Nat} (buffer : Memory) {position : Int}
    (room : offset + n ≤ fsbi.bytesPerCluster) (some_room : offset < fsbi.bytesPerCluster)
    (source : Destination buf n) :
    ∃ w', run (writePieces fsbi (fuel + 1) ⟨cluster, 0, false, n, offset, buf, buffer, position⟩) w =
        some (.done ⟨0, 0, position + n⟩, w') ∧ w'.memory = w.memory ∧
      w'.disk = copy w.memory buf w.disk (512 * clusterSector fsbi cluster + offset) n := by
  have bytes := layout.bytes
  generalize sector_eq : clusterSector fsbi cluster = sector
  have free : Room fsbi offset (fsbi.bytesPerCluster - offset) := ⟨by omega, by omega, by omega⟩
  have piece : pieceLength fsbi n offset = n := pieceLength_last free (by omega)
  obtain ⟨w₁, ran, disk, memory⟩ := @run_copyIn fsbi w
    (clusterBuffer fsbi (w.sectors sector)) offset buf n room source
  refine ⟨w₁.putSectors sector fsbi.sectorPerCluster
    (copy w.memory buf (clusterBuffer fsbi (w.sectors sector)) offset n), ?_, ?_, ?_⟩
  · simp only [writePieces, loadCluster, Bool.false_eq_true, ↓reduceIte, run_bind, readSectors, run,
      Option.bind_some, sector_eq, pure, Option.map_some, writePiece, piece, ran, writeSectors,
      Bool.true_eq_false, Writing.past, Int.sub_self]
  · rw [putSectors_memory, memory]
  · have replaced := cluster_replaced w sector offset buf n fsbi.sectorPerCluster (by omega)
    rw [← replaced]
    simp only [World.putSectors, disk, clusterBuffer]

/-- FAT32_write of bytes that fit into the cluster of the position puts them there. -/
theorem run_FAT32Write_piece {fsbi : SbInfo} (layout : Layout fsbi) {w : World}
    {inode : IndexNode} {buf n position cluster : Nat} (started : inode.firstCluster ≠ 0)
    (at_cluster : clusterAt fsbi w inode.firstCluster (position / fsbi.bytesPerCluster) = cluster)
    (linked : cluster ≠ 0) (countable : Countable fsbi position) (word : position + n < 2 ^ 64)
    (room : position % fsbi.bytesPerCluster + n ≤ fsbi.bytesPerCluster)
    (source : Destination buf n) :
    ∃ w', run (FAT32Write fsbi inode buf n position) w =
        some (((n : Int), grown inode position n, ((position + n : Nat) : Int)), w') ∧
      Wrote fsbi w w' inode
        (512 * clusterSector fsbi cluster + position % fsbi.bytesPerCluster) buf position n := by
  have some_bytes := layout.mounted.some_bytes
  have below := Nat.mod_lt position some_bytes
  have bounded := layout.bounded
  have not_zero : ¬ fsbi.bytesPerCluster = 0 := by omega
  have small : n < 2 ^ 31 := by omega
  have same : (n : Int).bmod (2 ^ 64) = n := bmod_small (by omega)
  have offset : (position : Int).tmod fsbi.bytesPerCluster =
      (position % fsbi.bytesPerCluster : Nat) := rfl
  have walked := run_walkChain fsbi { w with fresh := w.fresh.tail }
    (position / fsbi.bytesPerCluster) inode.firstCluster
  have same_chain := @clusterAt_disk fsbi w { w with fresh := w.fresh.tail } rfl
    inode.firstCluster (position / fsbi.bytesPerCluster)
  rw [same_chain, at_cluster] at walked
  obtain ⟨w₁, ran, memory, disk⟩ := @run_onePiece fsbi layout { w with fresh := w.fresh.tail }
    n cluster (position % fsbi.bytesPerCluster) buf n (w.fresh.headD fun _ => 0) position room below
    source
  obtain ⟨w₂, finished, memory₂, disk₂⟩ := run_finish fsbi w₁ inode word n
  refine ⟨w₂, ?_, memory₂.trans memory, ?_⟩
  · simp only [FAT32Write, if_neg not_zero, if_neg started, run_bind, alloc, run, Option.bind_some,
      links_eq countable, Int.toNat_natCast, walked, if_neg linked, writeAt, toInt32_small small,
      offset, ran, same, ↓reduceIte]
    exact finished
  · rw [disk₂, disk]

end Fat32

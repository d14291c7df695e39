import Q2os.Volume
import Q2os.UserPointers

/- What FAT32_read delivers: the bytes of the clusters of the chain one after the other. -/
namespace Fat32
open ByteMemory BlockProgram UserMemory UserPointers

theorem Layout.mounted {fsbi : SbInfo} (layout : Layout fsbi) : Mounted fsbi := by
  have bytes := layout.bytes
  have some_sectors := layout.some_sectors
  exact ⟨by omega, layout.bounded⟩

theorem fatEntry_disk {fsbi : SbInfo} {w w' : World} (same : w'.disk = w.disk) :
    fatEntry fsbi w' = fatEntry fsbi w := by
  funext cluster
  have sectors : w'.sectors = w.sectors := by
    funext sector i
    simp only [World.sectors, same]
  simp only [fatEntry, sectors]

theorem clusterAt_disk {fsbi : SbInfo} {w w' : World} (same : w'.disk = w.disk)
    (cluster n : Nat) : clusterAt fsbi w' cluster n = clusterAt fsbi w cluster n := by
  induction n generalizing cluster with
  | zero => rfl
  | succ n ih => rw [clusterAt, clusterAt, fatEntry_disk same, ih]

/-- Byte o of the chain that starts at a cluster. -/
def chainByte (fsbi : SbInfo) (w : World) (cluster o : Nat) : UInt8 :=
  w.disk (512 * clusterSector fsbi (clusterAt fsbi w cluster (o / fsbi.bytesPerCluster)) +
    o % fsbi.bytesPerCluster)

structure Delivered (w w' : World) (buf n : Nat) (bytes : Nat → UInt8) : Prop where
  disk : w'.disk = w.disk
  inside : ∀ t < n, w'.memory (buf + t) = bytes t
  outside : ∀ a, a < buf ∨ buf + n ≤ a → w'.memory a = w.memory a

def Caller (buf n : Nat) : Prop := buf + n ≤ taskSize

theorem pieceSize_caller {buf n : Nat} (caller : Caller buf n) : pieceSize buf n = n := by
  unfold Caller at caller
  by_cases low : buf < taskSize
  · have inside : (buf + ((n : Int) % 2 ^ 64).toNat) % 2 ^ 64 ≤ taskSize := by
      simp only [taskSize] at caller ⊢
      omega
    rw [pieceSize_checked low inside]
    simp only [taskSize] at caller
    omega
  · have nothing : n = 0 := by omega
    rw [pieceSize_high low, memcpySize_pos n (by omega)]

/- Where FAT32_read may deliver: a buffer of the caller, or addresses from TASK_SIZE on, which
   memcpy takes as they are. -/
def Destination (buf n : Nat) : Prop := Caller buf n ∨ taskSize ≤ buf ∧ buf + n ≤ 2 ^ 64

theorem pieceSize_destination {buf n : Nat} (destination : Destination buf n) :
    pieceSize buf n = n := by
  rcases destination with caller | ⟨high, inside⟩
  · exact pieceSize_caller caller
  · have some_ : 0 < taskSize := by decide
    rw [pieceSize_high (by omega), memcpySize_pos n (by omega)]

theorem Destination.first {buf n r : Nat} (destination : Destination buf n) (within : r ≤ n) :
    Destination buf r := by
  unfold Destination Caller at destination ⊢
  omega

theorem Destination.rest {buf n r : Nat} (destination : Destination buf n) (within : r ≤ n) :
    Destination (buf + r) (n - r) := by
  unfold Destination Caller at destination ⊢
  omega

theorem Destination.advance {buf n r : Nat} (destination : Destination buf n) (within : r < n) :
    advance buf r = buf + r := by
  have below : taskSize < 2 ^ 64 := by decide
  rw [advance_eq]
  unfold Destination Caller at destination
  omega

theorem run_copyOut {fsbi : SbInfo} (w : World) (buffer : Memory) {offset buf n : Nat}
    (room : offset + n ≤ fsbi.bytesPerCluster) (destination : Destination buf n) :
    ∃ w', run (copyOut fsbi buffer offset buf n) w = some ((), w') ∧
      Delivered w w' buf n fun t => buffer (offset + t) := by
  have size := pieceSize_destination destination
  by_cases nothing : n = 0
  · refine ⟨w, ?_, rfl, fun t within => by omega, fun a _ => rfl⟩
    unfold copyOut
    rw [if_pos (size.trans nothing)]
    rfl
  · have inside : Inside fsbi offset n := ⟨by omega, by omega⟩
    refine ⟨{ w.touch buf n with memory := copy (fun i => buffer (offset + i)) 0 w.memory buf n },
      ?_, rfl, fun t within => ?_, fun a far => ?_⟩
    · unfold copyOut
      rw [if_neg (by rw [size]; exact nothing), size]
      simp only [Int.toNat_natCast, if_pos inside]
      rfl
    · have moved := copy_inside (fun i => buffer (offset + i)) w.memory 0 buf n t within
      rw [Nat.zero_add] at moved
      exact moved
    · exact copy_outside (fun i => buffer (offset + i)) w.memory 0 buf n a far

theorem clusterBuffer_byte {fsbi : SbInfo} (layout : Layout fsbi) (w : World) (sector : Nat)
    {x : Nat} (inside : x < fsbi.bytesPerCluster) :
    clusterBuffer fsbi (w.sectors sector) x = w.disk (512 * sector + x) := by
  have bytes := layout.bytes
  have moved := copy_inside (w.sectors sector) zeros 0 0 (512 * fsbi.sectorPerCluster) x (by omega)
  rw [Nat.zero_add] at moved
  exact moved

theorem chainByte_here {fsbi : SbInfo} (w : World) (cluster : Nat) {o : Nat}
    (inside : o < fsbi.bytesPerCluster) :
    chainByte fsbi w cluster o = w.disk (512 * clusterSector fsbi cluster + o) := by
  rw [chainByte, Nat.div_eq_of_lt inside, Nat.mod_eq_of_lt inside]
  rfl

theorem chainByte_next {fsbi : SbInfo} (w : World) (cluster o : Nat)
    (some_bytes : 0 < fsbi.bytesPerCluster) :
    chainByte fsbi w cluster (fsbi.bytesPerCluster + o) =
      chainByte fsbi w (fatEntry fsbi w cluster) o := by
  rw [chainByte, Nat.add_div_left _ some_bytes, Nat.add_mod_left]
  rfl

def readRest (fsbi : SbInfo) (fuel cluster : Nat) (index : Int) (buf : Nat) (position : Int) :
    Prog Outcome := do
  if index = 0 then return ⟨0, index, position⟩
  else
    let next ← DISK1FAT32ReadFATEntry fsbi cluster
    if next = 0 then return ⟨0, index, position⟩
    else readPieces fsbi fuel next index 0 buf position

/-- The loop of FAT32_read delivers n bytes from offset on, unless an entry on the way
    reads 0. -/
theorem run_readPieces {fsbi : SbInfo} (layout : Layout fsbi) {w : World}
    {fuel cluster buf offset n : Nat} {position : Int} (enough : n < fuel)
    (inside : offset < fsbi.bytesPerCluster) (destination : Destination buf n)
    (linked : ∀ i, 0 < i → i * fsbi.bytesPerCluster < offset + n →
      clusterAt fsbi w cluster i ≠ 0) :
    ∃ w', run (readPieces fsbi fuel cluster n offset buf position) w =
        some (⟨0, 0, position + n⟩, w') ∧
      Delivered w w' buf n fun t => chainByte fsbi w cluster (offset + t) := by
  have some_bytes := layout.mounted.some_bytes
  induction fuel generalizing w cluster buf offset n position with
  | zero => omega
  | succ fuel ih =>
    have step : ∀ length : Int, pieceLength fsbi n offset = length →
        run (readPieces fsbi (fuel + 1) cluster n offset buf position) w =
          (run (copyOut fsbi (clusterBuffer fsbi (w.sectors (clusterSector fsbi cluster))) offset
            buf length) w).bind fun a =>
              run (readRest fsbi fuel cluster (n - length) (advance buf length)
                (position + length)) a.2 := by
      intro length piece
      rw [← piece]
      exact run_bind (copyOut fsbi _ offset buf (pieceLength fsbi n offset)) (fun _ => readRest fsbi
        fuel cluster (n - pieceLength fsbi n offset) (advance buf (pieceLength fsbi n offset))
        (position + pieceLength fsbi n offset)) w
    have room : Room fsbi offset (fsbi.bytesPerCluster - offset) :=
      ⟨by omega, by omega, by omega⟩
    by_cases last : n ≤ fsbi.bytesPerCluster - offset
    · have piece : pieceLength fsbi n offset = n := pieceLength_last room (by omega)
      obtain ⟨w', ran, delivered⟩ := @run_copyOut fsbi w
        (clusterBuffer fsbi (w.sectors (clusterSector fsbi cluster))) offset buf n (by omega)
        destination
      refine ⟨w', ?_, delivered.disk, fun t within => ?_, delivered.outside⟩
      · rw [step n piece, ran, Int.sub_self]
        rfl
      · rw [delivered.inside t within, clusterBuffer_byte layout w _ (by omega),
          chainByte_here w cluster (by omega)]
    · have r_at : fsbi.bytesPerCluster - offset < n := by omega
      generalize r_eq : fsbi.bytesPerCluster - offset = r at room last r_at
      have piece : pieceLength fsbi n offset = r :=
        pieceLength_more layout.mounted room (by omega)
      obtain ⟨w₁, ran, first⟩ := @run_copyOut fsbi w
        (clusterBuffer fsbi (w.sectors (clusterSector fsbi cluster))) offset buf r (by omega)
        (destination.first (by omega))
      have linked_next : fatEntry fsbi w cluster ≠ 0 := linked 1 (by omega) (by omega)
      have rest : ((n : Int) - r) = ((n - r : Nat) : Int) := by omega
      have moved : advance buf r = buf + r := destination.advance r_at
      obtain ⟨w₂, ran₂, second⟩ := @ih w₁ (fatEntry fsbi w cluster) (buf + r) 0 (n - r)
        (position + r) (by omega) some_bytes
        (destination.rest (by omega)) (by
          intro i positive within
          rw [clusterAt_disk first.disk]
          apply linked (i + 1) (by omega)
          rw [Nat.add_mul]
          omega)
      refine ⟨w₂, ?_, second.disk.trans first.disk, fun t within => ?_, fun a far => ?_⟩
      · have more : ¬ (((n - r : Nat) : Int) = 0) := by omega
        have total : position + r + ((n - r : Nat) : Int) = position + n := by omega
        rw [step r piece, ran, rest, moved]
        simp only [Option.bind_some, readRest, if_neg more, run_bind, run_readFATEntry,
          fatEntry_disk first.disk, if_neg linked_next]
        rw [← total]
        exact ran₂
      · by_cases before : t < r
        · rw [second.outside _ (Or.inl (by omega)), first.inside t before,
            clusterBuffer_byte layout w _ (by omega), chainByte_here w cluster (by omega)]
        · have place : buf + t = buf + r + (t - r) := by omega
          have byte : offset + t = fsbi.bytesPerCluster + (t - r) := by omega
          rw [place, second.inside (t - r) (by omega), byte, chainByte_next w cluster _ some_bytes,
            Nat.zero_add]
          simp only [chainByte, clusterAt_disk first.disk, first.disk]
      · rw [second.outside a (by omega), first.outside a (by omega)]

def Countable (fsbi : SbInfo) (position : Nat) : Prop :=
  position / fsbi.bytesPerCluster < 2 ^ 31

theorem bmod_small {n m : Nat} (small : 2 * n < m) : (n : Int).bmod m = n := by
  have rest : (n : Int) % m = n := Int.emod_eq_of_lt (by omega) (by omega)
  rw [Int.bmod_eq_emod_of_lt (by omega), rest]

theorem toInt32_small {n : Nat} (small : n < 2 ^ 31) : toInt32 n = n := bmod_small (by omega)

theorem toInt32_le (n : Nat) : toInt32 n ≤ n := by
  simp only [toInt32, Int.bmod]
  omega

theorem links_eq {fsbi : SbInfo} {position : Nat} (countable : Countable fsbi position) :
    toInt32 ((position : Int).tdiv fsbi.bytesPerCluster) =
      (position / fsbi.bytesPerCluster : Nat) :=
  toInt32_small countable

theorem readCount_eq {inode : IndexNode} {position count : Nat} (within : position ≤ inode.fileSize)
    (word : position + count < 2 ^ 64) (size : inode.fileSize < 2 ^ 64) :
    readCount inode position count = min count (inode.fileSize - position) := by
  unfold readCount
  split
  · omega
  · omega

/-- FAT32_read delivers the bytes of the chain from the position on, up to the end of the
    file. -/
theorem run_FAT32Read {fsbi : SbInfo} (layout : Layout fsbi) {w : World} {inode : IndexNode}
    {buf count position n : Nat} (n_eq : n = min count (inode.fileSize - position))
    (started : inode.firstCluster ≠ 0) (within : position ≤ inode.fileSize)
    (word : position + count < 2 ^ 64) (size : inode.fileSize < 2 ^ 64)
    (countable : Countable fsbi position) (small : n < 2 ^ 31) (destination : Destination buf n)
    (linked : ∀ i, position / fsbi.bytesPerCluster < i →
      i * fsbi.bytesPerCluster < position + n → clusterAt fsbi w inode.firstCluster i ≠ 0) :
    ∃ w', run (FAT32Read fsbi inode buf count position) w =
        some (((n : Int), ((position + n : Nat) : Int)), w') ∧
      Delivered w w' buf n fun t => chainByte fsbi w inode.firstCluster (position + t) := by
  have some_bytes := layout.mounted.some_bytes
  have clipped := readCount_eq within word size
  rw [← n_eq] at clipped
  have split := Nat.div_add_mod' position fsbi.bytesPerCluster
  have below := Nat.mod_lt position some_bytes
  generalize block : clusterAt fsbi w inode.firstCluster (position / fsbi.bytesPerCluster) = start
  have byte : ∀ t, chainByte fsbi w start (position % fsbi.bytesPerCluster + t) =
      chainByte fsbi w inode.firstCluster (position + t) := by
    intro t
    have place : position + t = position % fsbi.bytesPerCluster + t +
        position / fsbi.bytesPerCluster * fsbi.bytesPerCluster := by omega
    rw [chainByte, chainByte, place, Nat.add_mul_div_right _ _ some_bytes, Nat.add_mul_mod_self_right,
      Nat.add_comm _ (position / fsbi.bytesPerCluster), clusterAt_add, block]
  have same_chain : ∀ c k, clusterAt fsbi { w with fresh := w.fresh.tail } c k =
      clusterAt fsbi w c k :=
    fun c k => @clusterAt_disk fsbi w { w with fresh := w.fresh.tail } rfl c k
  obtain ⟨w', ran, delivered⟩ := @run_readPieces fsbi layout
    { w with fresh := w.fresh.tail } (n + 1) start buf
    (position % fsbi.bytesPerCluster) n position (by omega) below
    destination (by
      intro i positive reach
      rw [same_chain, ← block, ← clusterAt_add]
      apply linked _ (by omega)
      rw [Nat.add_mul]
      omega)
  refine ⟨w', ?_, delivered.disk, fun t inside => ?_, delivered.outside⟩
  · have walked := run_walkChain fsbi { w with fresh := w.fresh.tail }
      (position / fsbi.bytesPerCluster) inode.firstCluster
    rw [same_chain, block] at walked
    have counted : (if ((((position : Int) + count) % 2 ^ 64).toNat > inode.fileSize)
        then (((inode.fileSize : Int) - position) % 2 ^ 64).toNat else count) = n := clipped
    have not_zero : ¬ fsbi.bytesPerCluster = 0 := by omega
    have same : (n : Int).bmod (2 ^ 64) = n := bmod_small (by omega)
    have offset : (position : Int).tmod fsbi.bytesPerCluster =
        (position % fsbi.bytesPerCluster : Nat) := rfl
    simp only [FAT32Read, if_neg not_zero, if_neg started, run_bind, alloc, run, Option.bind_some,
      links_eq countable, Int.toNat_natCast, walked, counted, toInt32_small small, offset, ran,
      ↓reduceIte, same]
    rfl
  · rw [delivered.inside t inside, ← byte t]
    simp only [chainByte, same_chain]

end Fat32

import Q2os.ChainReads
import Q2os.FilePosition

/- Reading a file back behind FAT32_write: the old bytes with the new ones in their place. -/
namespace WriteThenRead
open ByteMemory BlockProgram Fat32 UserPointers
open UserMemory (taskSize)
open NameMatching (oneSectorVolume oneSector_layout)
open Descriptors (position_countable readmeDisk readme_valid)
open ChainReads (WellFormed)
open FilePosition (clear_cluster)

/-- A regular file of the volume and its inode: the entry, a chain that has room for the size. -/
structure Filed (fsbi : SbInfo) (w : World) (own : Nat → Prop) (inode : IndexNode) (len : Nat) :
    Prop where
  file : OnDisk fsbi w own inode.dentryLocation inode.dentryPosition inode.firstCluster len
  some_clusters : inode.firstCluster ≠ 0 → 0 < len
  room : inode.fileSize ≤ len * fsbi.bytesPerCluster
  word : inode.fileSize < 2 ^ 32

/-- FAT32_read of any part of a file, up to 2GB at a time, delivers these bytes. -/
def Reads (fsbi : SbInfo) (w : World) (inode : IndexNode) (bytes : Nat → UInt8) : Prop :=
  ∀ dest count position n : Nat, n = min count (inode.fileSize - position) →
    position ≤ inode.fileSize → count < 2 ^ 63 → n < 2 ^ 31 → Destination dest n →
      ∃ w', run (FAT32Read fsbi inode dest count position) w =
          some (((n : Int), ((position + n : Nat) : Int)), w') ∧
        Delivered w w' dest n fun t => bytes (position + t)

/-- Where FAT32_write returns the count, the size is the larger of the old one and the end of the
    write, and the file reads as before but for the bytes of the buffer. -/
def WrittenBack (fsbi : SbInfo) (w : World) (inode : IndexNode) (buf count position : Nat) : Prop :=
  ∀ inode' position' w',
    run (FAT32Write fsbi inode buf count position) w =
      some (((count : Int), inode', position'), w') →
      inode'.fileSize = max inode.fileSize (position + count) ∧
      Reads fsbi w' inode'
        (copy w.memory buf (chainByte fsbi w inode.firstCluster) position count)

section reading
variable {fsbi : SbInfo} (layout : Layout fsbi)
include layout

theorem reads_links {w : World} {inode : IndexNode} {bytes : Nat → UInt8} {last : Nat}
    (started : inode.firstCluster ≠ 0)
    (linked : ∀ i ≤ last, clusterAt fsbi w inode.firstCluster i ≠ 0)
    (room : inode.fileSize ≤ (last + 1) * fsbi.bytesPerCluster) (word : inode.fileSize < 2 ^ 33)
    (same : ∀ o < inode.fileSize, chainByte fsbi w inode.firstCluster o = bytes o) :
    Reads fsbi w inode bytes := by
  intro dest count position n n_eq within admitted small destination
  have bytes_eq := layout.bytes
  have some_sectors := layout.some_sectors
  have countable : Countable fsbi position := by
    have half := Nat.div_le_div_left (a := position) (by omega : 512 ≤ fsbi.bytesPerCluster)
      (by omega)
    unfold Fat32.Countable
    omega
  obtain ⟨w', ran, delivered⟩ := @run_FAT32Read fsbi layout w inode dest count position n n_eq
    started within (by omega) (by omega) countable small destination fun i _ reach => by
      apply linked i
      have less : i < last + 1 := by
        apply Nat.lt_of_mul_lt_mul_right (a := fsbi.bytesPerCluster)
        omega
      omega
  refine ⟨w', ran, delivered.disk, fun t inside => ?_, delivered.outside⟩
  rw [delivered.inside t inside]
  exact same _ (by omega)

end reading

section writing
variable {fsbi : SbInfo} {w : World} {own : Nat → Prop} {inode : IndexNode} {len : Nat}

theorem Filed.off_entry (filed : Filed fsbi w own inode len) (started : inode.firstCluster ≠ 0)
    {i : Nat} (within : i ≤ len) :
    clusterAt fsbi w inode.firstCluster i ≠ inode.dentryLocation := by
  rcases Nat.lt_or_eq_of_le within with inside | last
  · exact (filed.file.cluster started inside).2.2
  · have mark := (filed.file.chain started).ends
    have below := filed.file.regular.cluster.no_mark
    rw [last]
    omega

variable (layout : Layout fsbi) (filed : Filed fsbi w own inode len)
include layout filed

theorem Filed.landed (started : inode.firstCluster ≠ 0) {w' : World} (source : Memory)
    {buf n position : Nat} (reach : position / fsbi.bytesPerCluster ≤ len)
    (fits : position % fsbi.bytesPerCluster + n ≤ fsbi.bytesPerCluster)
    (disk : w'.disk = copy source buf w.disk (512 * clusterSector fsbi
      (clusterAt fsbi w inode.firstCluster (position / fsbi.bytesPerCluster)) +
        position % fsbi.bytesPerCluster) n) :
    (∀ i ≤ len, clusterAt fsbi w' inode.firstCluster i = clusterAt fsbi w inode.firstCluster i) ∧
    Regular fsbi w' inode.dentryLocation inode.dentryPosition inode.firstCluster ∧
    ∀ o < (len + 1) * fsbi.bytesPerCluster, chainByte fsbi w' inode.firstCluster o =
      copy source buf (chainByte fsbi w inode.firstCluster) position n o := by
  have chain := filed.file.chain started
  have spread := chain.spread (filed.some_clusters started)
  have entry := filed.file.regular.cluster
  have entry_room := filed.file.regular.room
  have tables : SameTables fsbi w w' := by
    intro x table
    rw [disk, copy_outside _ _ _ _ _ _
      (placed_off_tables layout (spread.data _ reach) (spread.small _ reach) table)]
  have links := (chain.frame layout tables).1
  refine ⟨links, filed.file.regular.resized layout fun a low high => ?_, fun o within =>
    chainByte_copied layout links spread source reach fits disk within⟩
  rw [disk, copy_outside]
  exact placed_clear layout entry.data (spread.data _ reach) (valid_small entry)
    (spread.small _ reach) (filed.off_entry started reach).symm (by omega) fits

theorem Filed.sized (started : inode.firstCluster ≠ 0) {w₁ w' : World}
    (links : ∀ i ≤ len, clusterAt fsbi w₁ inode.firstCluster i =
      clusterAt fsbi w inode.firstCluster i) {value : Nat}
    (disk : w'.disk = setLittle w₁.disk (512 * clusterSector fsbi inode.dentryLocation +
      32 * inode.dentryPosition + 28) value 4) :
    (∀ i ≤ len, clusterAt fsbi w' inode.firstCluster i = clusterAt fsbi w₁ inode.firstCluster i) ∧
    ∀ o < (len + 1) * fsbi.bytesPerCluster,
      chainByte fsbi w' inode.firstCluster o = chainByte fsbi w₁ inode.firstCluster o := by
  have chain := filed.file.chain started
  have spread := chain.spread (filed.some_clusters started)
  have entry := filed.file.regular.cluster
  have entry_room := filed.file.regular.room
  have tables : SameTables fsbi w₁ w' := by
    intro x table
    have clear := @table_clear fsbi layout _ (32 * inode.dentryPosition + 28) 4 x entry table
    rw [disk, setLittle_outside (by omega)]
  have kept : ∀ i ≤ len, clusterAt fsbi w' inode.firstCluster i =
      clusterAt fsbi w₁ inode.firstCluster i := fun i within =>
    clusterAt_frame layout tables fun k less => by
      rw [links k (by omega)]
      exact (chain.valid k (by omega)).in_table
  refine ⟨kept, fun o within => chainByte_kept layout kept (fun i low a inside => ?_) within⟩
  have clear := @placed_clear fsbi layout _ inode.dentryLocation a
    (32 * inode.dentryPosition + 28) 4 (spread.data i low) entry.data (spread.small i low)
    (valid_small entry) (filed.off_entry started low) inside (by omega)
  rw [links i low, disk, setLittle_outside (by omega)]

theorem Filed.piece_back (started : inode.firstCluster ≠ 0) {buf count position : Nat}
    (within : position ≤ inode.fileSize)
    (fits : position % fsbi.bytesPerCluster + count ≤ fsbi.bytesPerCluster)
    (source : Destination buf count) :
    (∃ r w', run (FAT32Write fsbi inode buf count position) w = some (((count : Int), r), w')) ∧
      WrittenBack fsbi w inode buf count position := by
  have some_bytes := layout.mounted.some_bytes
  have bounded := layout.bounded
  have room := filed.room
  have word := filed.word
  have chain := filed.file.chain started
  have spread := chain.spread (filed.some_clusters started)
  have reach : position / fsbi.bytesPerCluster ≤ len :=
    Nat.div_le_of_le_mul (by rw [Nat.mul_comm]; omega)
  have linked := spread.data _ reach
  obtain ⟨w', ran, wrote⟩ := @run_FAT32Write_piece fsbi layout w inode buf count position _ started
    rfl (by omega) (position_countable layout (by omega)) (by omega) fits source
  refine ⟨⟨_, _, ran⟩, fun inode' position' w'' again => ?_⟩
  rw [ran] at again
  simp only [Option.some.injEq, Prod.mk.injEq] at again
  obtain ⟨⟨_, made, _⟩, rfl⟩ := again
  have disk := wrote.disk
  generalize middle : copy w.memory buf w.disk (512 * clusterSector fsbi
    (clusterAt fsbi w inode.firstCluster (position / fsbi.bytesPerCluster)) +
      position % fsbi.bytesPerCluster) count = middle_disk at disk
  obtain ⟨w₁, disk₁⟩ : ∃ w₁ : World, w₁.disk = middle_disk := ⟨{ w with disk := middle_disk }, rfl⟩
  rw [← disk₁] at disk middle
  obtain ⟨links, regular, landed⟩ := filed.landed layout started w.memory reach fits middle.symm
  have split := Nat.div_add_mod' position fsbi.bytesPerCluster
  have below : position / fsbi.bytesPerCluster * fsbi.bytesPerCluster ≤
      len * fsbi.bytesPerCluster :=
    Nat.mul_le_mul_right _ reach
  have whole : (len + 1) * fsbi.bytesPerCluster =
      len * fsbi.bytesPerCluster + fsbi.bytesPerCluster :=
    Nat.succ_mul len fsbi.bytesPerCluster
  -- the new size in the entry leaves the clusters of the chain
  have last : (∀ i ≤ len, clusterAt fsbi w' inode.firstCluster i =
      clusterAt fsbi w₁ inode.firstCluster i) ∧ ∀ o < (len + 1) * fsbi.bytesPerCluster,
        chainByte fsbi w' inode.firstCluster o = chainByte fsbi w₁ inode.firstCluster o := by
    by_cases grows : position + count > inode.fileSize
    · rw [written, if_pos grows] at disk
      have new := @grown_inode inode _ _ _ ⟨rfl, rfl, rfl⟩ position count
      have size := @putEntry_size fsbi layout w₁ (grown inode position count)
        (by rw [new.cluster, new.place, new.started]; exact regular)
      rw [← disk, entryByte, new.cluster, new.place] at size
      exact filed.sized layout started links size
    · rw [written, if_neg grows] at disk
      exact ⟨fun i _ => clusterAt_disk disk _ _, fun o _ => chainByte_disk disk _ _⟩
  have same_first : (grown inode position count).firstCluster = inode.firstCluster :=
    (@grown_inode inode _ _ _ ⟨rfl, rfl, rfl⟩ position count).started
  have size : (grown inode position count).fileSize = max inode.fileSize (position + count) := by
    unfold grown
    split
    · dsimp only
      omega
    · omega
  rw [← made]
  refine ⟨size, @reads_links fsbi layout _ _ _ len ?_ (fun i within => ?_) ?_ ?_ fun o inside => ?_⟩
  · rw [same_first]
    exact started
  · rw [same_first, last.1 i within, links i within]
    have data := spread.data i within
    omega
  · omega
  · omega
  · rw [same_first, last.2 o (by omega), landed o (by omega)]

omit filed in
theorem run_nothing (started : IndexNode) (cluster buf : Nat) (buffer : Memory) (w : World) :
    ∃ w', run (writeAt fsbi started cluster true buffer buf 0 (0 : Nat)) w =
      some ((0, started, ((0 : Nat) : Int)), w') := by
  have bounded := layout.bounded
  have piece : pieceLength fsbi 0 0 = 0 := by
    unfold pieceLength
    rw [if_pos (by omega)]
  have size : pieceSize buf 0 = 0 := Nat.le_zero.mp (@pieceSize_le buf 0 (by decide))
  have zero : toInt32 ((0 : Nat) : Int) = 0 := by decide
  have start : ((0 : Nat) : Int).tmod fsbi.bytesPerCluster = 0 := Int.zero_tmod _
  refine ⟨w.putSectors 0 fsbi.sectorPerCluster buffer, ?_⟩
  simp only [writeAt, zero, start, Int.toNat_zero, writePieces, loadCluster, ↓reduceIte, run_bind,
    run, pure, Option.bind_some, writePiece, piece, copyIn, size, writeSectors, Bool.true_eq_false,
    Writing.past, Int.sub_self]
  have no_more : ¬ ((((0 : Nat) : Int) + 0) % 2 ^ 64).toNat > started.fileSize := by
    simp
  rw [if_neg no_more]
  rfl

theorem Filed.empty_back (empty : inode.firstCluster = 0) {buf count : Nat}
    (either : count = 0 ∨ ∀ c, InTable fsbi c → fatEntry fsbi w c ≠ 0) :
    WrittenBack fsbi w inode buf count 0 := by
  have not_zero : ¬ fsbi.bytesPerCluster = 0 := Nat.ne_of_gt layout.mounted.some_bytes
  have no_size : inode.fileSize = 0 := by
    have room := filed.room
    rw [filed.file.bare empty] at room
    omega
  intro inode' position' w' ran
  obtain ⟨a, found, free⟩ := run_find layout { w with fresh := w.fresh.tail }
  simp only [FAT32Write, if_neg not_zero, if_pos empty, run_bind, alloc, run, Option.bind_some,
    found] at ran
  by_cases full : a = 0
  · rw [if_pos full] at ran
    cases ran
  · have taken : FirstFree fsbi { w with fresh := w.fresh.tail } a := by
      rcases free with first | used
      · exact first
      · exact absurd used.1 full
    have nothing : count = 0 := either.resolve_right fun used => used a taken.in_table taken.free
    rw [if_neg full, nothing] at ran
    obtain ⟨w₁, entered, _, _⟩ := run_fat32WriteInode fsbi { inode with firstCluster := a }
      { w with fresh := w.fresh.tail }
    obtain ⟨w₂, marked, _⟩ := run_writeFATEntry layout taken.in_table 0x0ffffff8 w₁
    obtain ⟨w₃, wrote⟩ := run_nothing layout { inode with firstCluster := a } a buf
      (w.fresh.headD fun _ => 0) w₂
    simp only [run_bind, entered, Option.bind_some, marked, wrote] at ran
    cases ran
    have no_byte : ∀ o, ¬ o < inode.fileSize := fun o inside => by omega
    refine ⟨by dsimp only; omega, @reads_links fsbi layout _ _ _ 0 full (fun i within => ?_) ?_ ?_
      fun o inside => absurd inside (no_byte o)⟩
    · rw [Nat.le_zero.mp within]
      exact full
    · dsimp only
      omega
    · dsimp only
      omega

omit filed in
theorem extend_none {s : Writing} {w' : World} {next : Option Writing} {w₁ : World}
    (used : ∀ c, InTable fsbi c → fatEntry fsbi w₁ c ≠ 0)
    (ran : run (extendChain fsbi s) w₁ = some (next, w')) : next = none := by
  obtain ⟨a, found, free⟩ := run_find layout w₁
  have full : a = 0 := by
    rcases free with first | none_
    · exact absurd first.free (used a first.in_table)
    · exact none_.1
  simp only [extendChain, run_bind, found, Option.bind_some, if_pos full] at ran
  cases ran
  rfl

omit filed in
theorem full_round {s : Writing} {w' : World} {leave : Leave} {fuel room : Nat}
    (ran : run (writePieces fsbi (fuel + 1) s) w = some (leave, w'))
    (h : Room fsbi s.offset room) (more : ¬ s.index ≤ room) (reads : s.flags = false)
    (valid : Valid fsbi s.cluster) (mark : endMark ≤ fatEntry fsbi w s.cluster)
    (used : ∀ c, InTable fsbi c → fatEntry fsbi w c ≠ 0) :
    ∃ position, leave = .full position := by
  have target : s.target fsbi = clusterSector fsbi s.cluster := by
    rw [Writing.target, reads, if_neg Bool.false_ne_true]
  rcases run_round layout.mounted h ran with done | round
  · exact absurd done.1 more
  · obtain ⟨_, buffer, w₁, same, round⟩ := round
    have cluster : (s.behind fsbi room buffer).cluster = s.cluster := rfl
    have tables := same (by rw [target]; exact clear_cluster layout valid.data (valid_small valid))
    have used' : ∀ c, InTable fsbi c → fatEntry fsbi w₁ c ≠ 0 := by
      intro c inside
      rw [fatEntry_frame layout tables inside]
      exact used c inside
    rw [run_goOn, cluster, fatEntry_frame layout tables valid.in_table, if_pos mark,
      run_bind] at round
    obtain ⟨⟨next, w₂⟩, extended, round⟩ := Option.bind_eq_some_iff.mp round
    rw [extend_none layout used' extended] at round
    cases round
    exact ⟨_, rfl⟩

theorem Filed.full_back (started : inode.firstCluster ≠ 0) {buf count position : Nat}
    (small : count < 2 ^ 31) (within : position ≤ inode.fileSize)
    (last : position / fsbi.bytesPerCluster + 1 = len)
    (crosses : ¬ position % fsbi.bytesPerCluster + count ≤ fsbi.bytesPerCluster)
    (used : ∀ c, InTable fsbi c → fatEntry fsbi w c ≠ 0) :
    WrittenBack fsbi w inode buf count position := by
  have some_bytes := layout.mounted.some_bytes
  have not_zero : ¬ fsbi.bytesPerCluster = 0 := Nat.ne_of_gt some_bytes
  have word := filed.word
  have below := Nat.mod_lt position some_bytes
  have chain := filed.file.chain started
  have valid := chain.valid _ (show position / fsbi.bytesPerCluster < len by omega)
  have mark := chain.ends
  rw [← last, clusterAt_succ] at mark
  have walked := run_walkChain fsbi { w with fresh := w.fresh.tail }
    (position / fsbi.bytesPerCluster) inode.firstCluster
  rw [@clusterAt_disk fsbi w { w with fresh := w.fresh.tail } rfl] at walked
  generalize clusterAt fsbi w inode.firstCluster (position / fsbi.bytesPerCluster) = cluster at *
  have linked : cluster ≠ 0 := by
    have data := valid.data
    omega
  have offset : (position : Int).tmod fsbi.bytesPerCluster =
      (position % fsbi.bytesPerCluster : Nat) := rfl
  intro inode' position' w' ran
  simp only [FAT32Write, if_neg not_zero, if_neg started, run_bind, alloc, run, Option.bind_some,
    links_eq (position_countable layout (by omega : position < 2 ^ 32)), Int.toNat_natCast, walked,
    if_neg linked, writeAt, toInt32_small small, offset] at ran
  obtain ⟨⟨leave, w₁⟩, loop, ran⟩ := Option.bind_eq_some_iff.mp ran
  have room : Room fsbi (position % fsbi.bytesPerCluster : Nat)
      (fsbi.bytesPerCluster - position % fsbi.bytesPerCluster) := ⟨by omega, by omega, by omega⟩
  obtain ⟨reached, full⟩ := full_round layout loop room
    (by dsimp only; omega) rfl valid mark used
  rw [full] at ran
  have returned : -ENOSPC = (count : Int) := congrArg (·.1.1) (Option.some.inj ran)
  unfold ENOSPC at returned
  omega

end writing

/-- The bytes end in the cluster of the file they start in, or there are none; or nothing is left
    where the file would need a cluster more. -/
def OneCluster (fsbi : SbInfo) (w : World) (inode : IndexNode) (len count position : Nat) : Prop :=
  (inode.firstCluster ≠ 0 ∧ position % fsbi.bytesPerCluster + count ≤ fsbi.bytesPerCluster) ∨
  count = 0 ∨
  ((inode.firstCluster = 0 ∨ position / fsbi.bytesPerCluster + 1 = len) ∧
    ∀ c, InTable fsbi c → fatEntry fsbi w c ≠ 0)

/-- FAT32_write of bytes in one cluster of a file returns their count and is read back. -/
theorem write_read_back {fsbi : SbInfo} (layout : Layout fsbi) {w : World} {own : Nat → Prop}
    {inode : IndexNode} {len buf count position : Nat} (filed : Filed fsbi w own inode len)
    (within : position ≤ inode.fileSize) (small : count < 2 ^ 31) (source : Destination buf count)
    (one : OneCluster fsbi w inode len count position) :
    (inode.firstCluster ≠ 0 →
      position % fsbi.bytesPerCluster + count ≤ fsbi.bytesPerCluster →
        ∃ r w', run (FAT32Write fsbi inode buf count position) w = some (((count : Int), r), w')) ∧
      WrittenBack fsbi w inode buf count position := by
  refine ⟨fun started fits => (filed.piece_back layout started within fits source).1, ?_⟩
  by_cases empty : inode.firstCluster = 0
  · have start : position = 0 := by
      have room := filed.room
      rw [filed.file.bare empty] at room
      omega
    rw [start]
    apply filed.empty_back layout empty
    rcases one with piece | nothing | full
    · exact absurd empty piece.1
    · exact Or.inl nothing
    · exact Or.inr full.2
  · by_cases fits : position % fsbi.bytesPerCluster + count ≤ fsbi.bytesPerCluster
    · exact (filed.piece_back layout empty within fits source).2
    · rcases one with piece | nothing | full
      · exact absurd piece.2 fits
      · have below := Nat.mod_lt position layout.mounted.some_bytes
        omega
      · exact filed.full_back layout empty small within (full.1.resolve_left empty) fits full.2

def readmeInode : IndexNode := ⟨1, 3, 2, 1⟩

def markedDisk : Memory := fun i => if 1024 ≤ i ∧ i < 1040 then 0xff else readmeDisk i

def markedWorld : World := ⟨markedDisk, fun _ => 0x42, [], [], []⟩

theorem marked_well : WellFormed oneSectorVolume markedWorld :=
  ⟨oneSector_layout, by decide, by decide +kernel, by decide⟩

theorem marked_filed : Filed oneSectorVolume markedWorld (fun c => c = 3) readmeInode 1 where
  file := by
    refine ⟨⟨readme_valid (by decide) (by decide), by decide, by decide +kernel, by decide +kernel,
      by decide +kernel⟩, by decide, fun c => ?_, fun _ => ⟨fun i less => ?_, by decide +kernel⟩,
      fun none_ => absurd none_ (by decide)⟩
    · constructor
      · intro own
        exact ⟨0, by decide, own.symm⟩
      · intro place
        obtain ⟨i, less, at_⟩ := place
        rw [Nat.lt_one_iff.mp less] at at_
        exact at_.symm
    · rw [Nat.lt_one_iff.mp less]
      exact readme_valid (by decide) (by decide)
  some_clusters _ := by decide
  room := by decide
  word := by decide

theorem write_read_back_readme :
    (readmeInode.firstCluster ≠ 0 → 1 % oneSectorVolume.bytesPerCluster + 511 ≤
        oneSectorVolume.bytesPerCluster → ∃ r w', run (FAT32Write oneSectorVolume readmeInode 4096
          511 (1 : Nat)) markedWorld = some ((((511 : Nat) : Int), r), w')) ∧
      WrittenBack oneSectorVolume markedWorld readmeInode 4096 511 1 :=
  write_read_back oneSector_layout marked_filed (by decide) (by decide)
    (Or.inl (by decide : 4096 + 511 ≤ taskSize)) (Or.inl ⟨by decide, by decide⟩)

/- One byte more belongs to a second cluster, and comes to the start of the first one. -/
theorem spanning_write_lost :
    ¬ ∀ (fsbi : SbInfo) (w : World) (own : Nat → Prop) (inode : IndexNode)
        (len buf count position : Nat),
      WellFormed fsbi w → Filed fsbi w own inode len → position ≤ inode.fileSize → count < 2 ^ 31 →
        Destination buf count → WrittenBack fsbi w inode buf count position := by
  intro claim
  have law := claim oneSectorVolume markedWorld _ readmeInode 1 4096 512 1 marked_well marked_filed
    (by decide) (by decide) (Or.inl (by decide : 4096 + 512 ≤ taskSize))
  have seen : ((run (FAT32Write oneSectorVolume readmeInode 4096 512 (1 : Nat)) markedWorld).bind
      fun r => (run (FAT32Read oneSectorVolume r.1.2.1 8192 1 (0 : Nat)) r.2).map fun s =>
        (r.1.1, s.2.memory 8192)) = some (512, 0x42) := by decide +kernel
  obtain ⟨⟨⟨ret, inode', position'⟩, w'⟩, wrote, seen⟩ := Option.bind_eq_some_iff.mp seen
  obtain ⟨⟨_, w''⟩, read, seen⟩ := Option.map_eq_some_iff.mp seen
  simp only [Prod.mk.injEq] at seen
  obtain ⟨returned, byte⟩ := seen
  rw [returned] at wrote
  obtain ⟨size, back⟩ := law inode' position' w' wrote
  obtain ⟨w₁, again, delivered⟩ := back 8192 1 0 1 (by rw [size]; decide) (Nat.zero_le _)
    (by decide) (by decide) (Or.inl (by decide : 8192 + 1 ≤ taskSize))
  have same : w₁ = w'' := by
    rw [read] at again
    exact (congrArg (·.2) (Option.some.inj again)).symm
  have old := delivered.inside 0 (by decide)
  rw [same, Nat.add_zero, byte] at old
  exact absurd old (by decide +kernel)

end WriteThenRead

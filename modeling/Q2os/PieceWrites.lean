import Q2os.FileEntry
import Q2os.PathFrame

/- What a write that stays in one cluster of a file changes on the disk: the bytes of the file
   it is about, the size in the entry if the file grew, and nothing else. -/
namespace Fat32
open ByteMemory BlockProgram NameMatching

theorem placed_clear {fsbi : SbInfo} (layout : Layout fsbi) {c c' a b n : Nat} (data : 2 ≤ c)
    (data' : 2 ≤ c') (small : c < 2 ^ 28) (small' : c' < 2 ^ 28) (differ : c ≠ c')
    (inside : a < fsbi.bytesPerCluster) (room : b + n ≤ fsbi.bytesPerCluster) :
    512 * clusterSector fsbi c + a < 512 * clusterSector fsbi c' + b ∨
      512 * clusterSector fsbi c' + b + n ≤ 512 * clusterSector fsbi c + a := by
  by_contra within
  have apart := @cluster_disjoint fsbi layout c c' a
    (512 * clusterSector fsbi c + a - 512 * clusterSector fsbi c') data data' small small' differ
    inside (by omega)
  omega

theorem cluster_clear {fsbi : SbInfo} (layout : Layout fsbi) {c c' a b n : Nat}
    (valid : Valid fsbi c) (valid' : Valid fsbi c') (differ : c ≠ c')
    (inside : a < fsbi.bytesPerCluster) (room : b + n ≤ fsbi.bytesPerCluster) :
    512 * clusterSector fsbi c + a < 512 * clusterSector fsbi c' + b ∨
      512 * clusterSector fsbi c' + b + n ≤ 512 * clusterSector fsbi c + a :=
  placed_clear layout valid.data valid'.data (valid_small valid) (valid_small valid') differ inside
    room

theorem placed_off_tables {fsbi : SbInfo} (layout : Layout fsbi) {c b n x : Nat} (data : 2 ≤ c)
    (small : c < 2 ^ 28) (table : TableSector fsbi (x / 512)) :
    x < 512 * clusterSector fsbi c + b ∨ 512 * clusterSector fsbi c + b + n ≤ x := by
  by_contra within
  have apart := @cluster_not_table fsbi layout c (x - 512 * clusterSector fsbi c) data small
  have place : 512 * clusterSector fsbi c + (x - 512 * clusterSector fsbi c) = x := by omega
  rw [place] at apart
  exact apart table

theorem table_clear {fsbi : SbInfo} (layout : Layout fsbi) {c b n x : Nat} (valid : Valid fsbi c)
    (table : TableSector fsbi (x / 512)) :
    x < 512 * clusterSector fsbi c + b ∨ 512 * clusterSector fsbi c + b + n ≤ x :=
  placed_off_tables layout valid.data (valid_small valid) table

/- The links up to one lie apart on the disk, as the clusters of a chain and its mark do. -/
structure Spread (fsbi : SbInfo) (w : World) (first last : Nat) : Prop where
  data : ∀ i ≤ last, 2 ≤ clusterAt fsbi w first i
  small : ∀ i ≤ last, clusterAt fsbi w first i < 2 ^ 28
  apart : ∀ i j, i < j → j ≤ last → clusterAt fsbi w first i ≠ clusterAt fsbi w first j

theorem Chain.spread {fsbi : SbInfo} {w : World} {first len : Nat} (chain : Chain fsbi w first len)
    (some_clusters : 0 < len) : Spread fsbi w first len := by
  have mark := chain.ends
  refine ⟨fun i within => ?_, fun i within => ?_, fun i j less within => ?_⟩
  · rcases Nat.lt_or_eq_of_le within with inside | last
    · exact (chain.valid i inside).data
    · rw [last]
      omega
  · rcases Nat.lt_or_eq_of_le within with inside | last
    · exact valid_small (chain.valid i inside)
    · obtain ⟨n, rfl⟩ : ∃ n, len = n + 1 := ⟨len - 1, by omega⟩
      rw [last, clusterAt_succ]
      exact fatEntry_lt fsbi w _
  · rcases Nat.lt_or_eq_of_le within with inside | last
    · exact chain.injective less inside
    · have below := (chain.valid i (by omega)).no_mark
      rw [last]
      omega

theorem Spread.before {fsbi : SbInfo} {w : World} {first last n : Nat}
    (spread : Spread fsbi w first last) (within : n ≤ last) : Spread fsbi w first n :=
  ⟨fun i low => spread.data i (by omega), fun i low => spread.small i (by omega),
    fun i j less low => spread.apart i j less (by omega)⟩

section links
variable {fsbi : SbInfo} (layout : Layout fsbi) {w w' : World} {first last : Nat}
  (links : ∀ i ≤ last, clusterAt fsbi w' first i = clusterAt fsbi w first i)
include layout links

theorem chainByte_kept (same : ∀ i ≤ last, ∀ a < fsbi.bytesPerCluster,
      w'.disk (512 * clusterSector fsbi (clusterAt fsbi w first i) + a) =
        w.disk (512 * clusterSector fsbi (clusterAt fsbi w first i) + a)) {o : Nat}
    (within : o < (last + 1) * fsbi.bytesPerCluster) :
    chainByte fsbi w' first o = chainByte fsbi w first o := by
  have some_bytes := layout.mounted.some_bytes
  have less : o / fsbi.bytesPerCluster < last + 1 := (Nat.div_lt_iff_lt_mul some_bytes).mpr within
  rw [chainByte, links _ (by omega), same _ (by omega) _ (Nat.mod_lt o some_bytes), chainByte]

theorem chainByte_copied (spread : Spread fsbi w first last) (source : Memory)
    {position buf n o : Nat} (less : position / fsbi.bytesPerCluster ≤ last)
    (room : position % fsbi.bytesPerCluster + n ≤ fsbi.bytesPerCluster)
    (disk : w'.disk = copy source buf w.disk (512 * clusterSector fsbi
      (clusterAt fsbi w first (position / fsbi.bytesPerCluster)) +
        position % fsbi.bytesPerCluster) n)
    (within : o < (last + 1) * fsbi.bytesPerCluster) :
    chainByte fsbi w' first o = copy source buf (chainByte fsbi w first) position n o := by
  have some_bytes := layout.mounted.some_bytes
  have less_o : o / fsbi.bytesPerCluster < last + 1 := (Nat.div_lt_iff_lt_mul some_bytes).mpr within
  have split_o := Nat.div_add_mod o fsbi.bytesPerCluster
  have split := Nat.div_add_mod position fsbi.bytesPerCluster
  have below := Nat.mod_lt o some_bytes
  rw [chainByte, links _ (by omega), disk]
  by_cases same : o / fsbi.bytesPerCluster = position / fsbi.bytesPerCluster
  · rw [same] at split_o
    by_cases new : position ≤ o ∧ o < position + n
    · obtain ⟨t, rfl⟩ : ∃ t, o = position + t := ⟨o - position, by omega⟩
      have place : (position + t) % fsbi.bytesPerCluster =
          position % fsbi.bytesPerCluster + t := by omega
      rw [same, place, ← Nat.add_assoc, copy_inside _ _ _ _ _ _ (by omega),
        copy_inside _ _ _ _ _ _ (by omega)]
    · rw [same, copy_outside _ _ _ _ _ _ (by omega), copy_outside _ _ _ _ _ _ (by omega), chainByte,
        same]
  · have differ : clusterAt fsbi w first (o / fsbi.bytesPerCluster) ≠
        clusterAt fsbi w first (position / fsbi.bytesPerCluster) := by
      rcases Nat.lt_or_gt_of_ne same with before | behind
      · exact spread.apart _ _ before less
      · exact (spread.apart _ _ behind (by omega)).symm
    have apart : o < position ∨ position + n ≤ o := by
      by_contra inside
      apply same
      have quot := Nat.div_le_div_right (c := fsbi.bytesPerCluster) (show position ≤ o by omega)
      have top : o / fsbi.bytesPerCluster < position / fsbi.bytesPerCluster + 1 := by
        apply (Nat.div_lt_iff_lt_mul some_bytes).mpr
        rw [Nat.add_mul, Nat.mul_comm]
        omega
      omega
    rw [copy_outside _ _ _ _ _ _ (placed_clear layout (spread.data _ (by omega))
        (spread.data _ less) (spread.small _ (by omega)) (spread.small _ less) differ below room),
      copy_outside _ _ _ _ _ _ apart, chainByte]

end links

/-- A file of the volume: the entry at place idx of a cluster, a chain of len clusters. -/
structure OnDisk (fsbi : SbInfo) (w : World) (own : Nat → Prop) (location idx first len : Nat) :
    Prop where
  regular : Regular fsbi w location idx first
  elsewhere : ¬ own location
  owns : ∀ c, own c ↔ ∃ i < len, clusterAt fsbi w first i = c
  chain : first ≠ 0 → Chain fsbi w first len
  bare : first = 0 → len = 0

theorem OnDisk.frame {fsbi : SbInfo} (layout : Layout fsbi) {w w' : World} {own : Nat → Prop}
    {location idx first len : Nat} (file : OnDisk fsbi w own location idx first len)
    (only : FileOnly fsbi w w' own location idx) :
    OnDisk fsbi w' own location idx first len := by
  have room := file.regular.room
  refine ⟨file.regular.resized layout fun a _ high => only.clusters location a
    file.regular.cluster file.elsewhere (by omega) (by omega), file.elsewhere, fun c => ?_,
    fun started => ((file.chain started).frame layout only.tables).2, file.bare⟩
  rw [file.owns c]
  by_cases bare : first = 0
  · rw [file.bare bare]
    simp
  · have links := ((file.chain bare).frame layout only.tables).1
    apply exists_congr
    intro i
    apply and_congr_right
    intro less
    rw [links i (by omega)]

theorem OnDisk.cluster {fsbi : SbInfo} {w : World} {own : Nat → Prop}
    {location idx first len : Nat} (file : OnDisk fsbi w own location idx first len)
    (started : first ≠ 0) {i : Nat} (less : i < len) :
    Valid fsbi (clusterAt fsbi w first i) ∧ own (clusterAt fsbi w first i) ∧
      clusterAt fsbi w first i ≠ location := by
  have owned := (file.owns _).mpr ⟨i, less, rfl⟩
  exact ⟨(file.chain started).valid i less, owned, fun same => file.elsewhere (same ▸ owned)⟩

section piece
variable {fsbi : SbInfo} (layout : Layout fsbi) {w w' : World} {own : Nat → Prop}
  {location idx first len : Nat} (file : OnDisk fsbi w own location idx first len)
include layout file

theorem OnDisk.bytes_only (started : first ≠ 0) (source : Memory) {i offset buf n : Nat}
    (less : i < len) (room : offset + n ≤ fsbi.bytesPerCluster)
    (disk : w'.disk = copy source buf w.disk
      (512 * clusterSector fsbi (clusterAt fsbi w first i) + offset) n) :
    FileOnly fsbi w w' own location idx := by
  obtain ⟨valid, owned, _⟩ := file.cluster started less
  refine ⟨fun x table => ?_, fun c a here other inside _ => ?_⟩
  · rw [disk, copy_outside _ _ _ _ _ _ (table_clear layout valid table)]
  · have differ : c ≠ clusterAt fsbi w first i := fun same => other (same ▸ owned)
    rw [disk, copy_outside _ _ _ _ _ _ (cluster_clear layout here valid differ inside room)]

theorem OnDisk.size_only {value : Nat} (disk : w'.disk =
      setLittle w.disk (512 * clusterSector fsbi location + 32 * idx + 28) value 4) :
    FileOnly fsbi w w' own location idx := by
  have valid := file.regular.cluster
  have room := file.regular.room
  refine ⟨fun x table => ?_, fun c a here other inside place => ?_⟩
  · have clear := @table_clear fsbi layout location (32 * idx + 28) 4 x valid table
    rw [disk, setLittle_outside (by omega)]
  · rw [disk, setLittle_outside]
    by_cases same : c = location
    · rw [same] at place ⊢
      omega
    · have clear := @cluster_clear fsbi layout c location a (32 * idx + 28) 4 here valid same inside
        (by omega)
      omega

theorem OnDisk.chainByte_piece (started : first ≠ 0) (source : Memory) {position buf n o : Nat}
    (less : position / fsbi.bytesPerCluster < len)
    (room : position % fsbi.bytesPerCluster + n ≤ fsbi.bytesPerCluster)
    (disk : w'.disk = copy source buf w.disk (512 * clusterSector fsbi
      (clusterAt fsbi w first (position / fsbi.bytesPerCluster)) +
        position % fsbi.bytesPerCluster) n)
    (within : o < len * fsbi.bytesPerCluster) :
    chainByte fsbi w' first o = copy source buf (chainByte fsbi w first) position n o := by
  have only := file.bytes_only layout started source less room disk
  have chain := file.chain started
  have some_clusters : 0 < len := Nat.lt_of_le_of_lt (Nat.zero_le _) less
  have spread : Spread fsbi w first (len - 1) := (chain.spread some_clusters).before (by omega)
  have whole : len - 1 + 1 = len := by omega
  exact chainByte_copied layout (fun i low => (chain.frame layout only.tables).1 i (by omega)) spread
    source (Nat.le_sub_one_of_lt less) room disk (by rw [whole]; exact within)

theorem OnDisk.chainByte_size {value o : Nat} (started : first ≠ 0) (disk : w'.disk =
      setLittle w.disk (512 * clusterSector fsbi location + 32 * idx + 28) value 4)
    (within : o < len * fsbi.bytesPerCluster) :
    chainByte fsbi w' first o = chainByte fsbi w first o := by
  have only := file.size_only layout disk
  have links := ((file.chain started).frame layout only.tables).1
  have entry_room := file.regular.room
  have some_clusters : 0 < len := Nat.pos_of_ne_zero fun none_ => by
    rw [none_, Nat.zero_mul] at within
    omega
  have whole : len - 1 + 1 = len := by omega
  refine @chainByte_kept fsbi layout w w' first (len - 1) (fun i low => links i (by omega))
    (fun i low a inside => ?_) o (by rw [whole]; exact within)
  obtain ⟨valid, _, differ⟩ := file.cluster started (show i < len by omega)
  have clear := @cluster_clear fsbi layout _ location a (32 * idx + 28) 4
    valid file.regular.cluster differ inside (by omega)
  rw [disk, setLittle_outside (by omega)]

end piece

/- The size FAT32_write leaves in the entry. -/
def entrySize (inode : IndexNode) (position n size : Nat) : Nat :=
  if position + n > inode.fileSize then position + n else size

/-- A file after n bytes from a position on were replaced. -/
structure Replaced (fsbi : SbInfo) (w w' : World) (own : Nat → Prop)
    (location idx first len : Nat) (inode : IndexNode) (source : Memory) (position buf n : Nat) :
    Prop where
  file : OnDisk fsbi w' own location idx first len
  only : FileOnly fsbi w w' own location idx
  bytes : ∀ o < len * fsbi.bytesPerCluster,
    chainByte fsbi w' first o = copy source buf (chainByte fsbi w first) position n o
  size : (recorded fsbi w' location idx).inode.fileSize =
    entrySize inode position n (recorded fsbi w location idx).inode.fileSize

structure InodeOf (inode : IndexNode) (location idx first : Nat) : Prop where
  started : inode.firstCluster = first
  cluster : inode.dentryLocation = location
  place : inode.dentryPosition = idx

theorem grown_inode {inode : IndexNode} {location idx first : Nat}
    (of_file : InodeOf inode location idx first) (position n : Nat) :
    InodeOf (grown inode position n) location idx first := by
  unfold grown
  split
  · exact ⟨of_file.started, of_file.cluster, of_file.place⟩
  · exact of_file

theorem chainByte_disk {fsbi : SbInfo} {w w' : World} (same : w'.disk = w.disk) (first o : Nat) :
    chainByte fsbi w' first o = chainByte fsbi w first o := by
  rw [chainByte, chainByte, clusterAt_disk same, same]

section write
variable {fsbi : SbInfo} (layout : Layout fsbi) {w w' : World} {own : Nat → Prop}
  {location idx first len : Nat} (file : OnDisk fsbi w own location idx first len)
include layout file

theorem OnDisk.untouched {inode : IndexNode} {source : Memory} {position buf : Nat}
    (within : position ≤ inode.fileSize) (same : w'.disk = w.disk) :
    Replaced fsbi w w' own location idx first len inode source position buf 0 where
  file := file.frame layout (FileOnly.of_disk fsbi own location idx same)
  only := FileOnly.of_disk fsbi own location idx same
  bytes o _ := by rw [copy_zero, chainByte_disk same]
  size := by
    rw [recorded_disk same, entrySize, if_neg (by omega)]

theorem OnDisk.overwritten {inode : IndexNode} (started : first ≠ 0) (source : Memory)
    {position buf n : Nat} (less : position / fsbi.bytesPerCluster < len)
    (room : position % fsbi.bytesPerCluster + n ≤ fsbi.bytesPerCluster)
    (stays : position + n ≤ inode.fileSize)
    (disk : w'.disk = copy source buf w.disk (512 * clusterSector fsbi
      (clusterAt fsbi w first (position / fsbi.bytesPerCluster)) +
        position % fsbi.bytesPerCluster) n) :
    Replaced fsbi w w' own location idx first len inode source position buf n := by
  have data := file.regular.cluster.data
  have entry_small := valid_small file.regular.cluster
  have entry_room := file.regular.room
  have only := file.bytes_only layout started source less room disk
  obtain ⟨valid, _, differ⟩ := file.cluster started less
  refine ⟨file.frame layout only, only, fun o within =>
    file.chainByte_piece layout started source less room disk within, ?_⟩
  rw [entrySize, if_neg (by omega), recorded_size layout w' data entry_small entry_room,
    recorded_size layout w data entry_small entry_room, disk]
  apply getLittle_congr
  intro i within
  apply copy_outside
  have clear := @cluster_clear fsbi layout location _ (32 * idx + 28 + i) _ n
    file.regular.cluster valid differ.symm (by omega) room
  omega

theorem OnDisk.resized {value : Nat} (small : value < 2 ^ 32) (started : first ≠ 0)
    (disk : w'.disk =
      setLittle w.disk (512 * clusterSector fsbi location + 32 * idx + 28) value 4) :
    OnDisk fsbi w' own location idx first len ∧ FileOnly fsbi w w' own location idx ∧
      (∀ o < len * fsbi.bytesPerCluster, chainByte fsbi w' first o = chainByte fsbi w first o) ∧
      (recorded fsbi w' location idx).inode.fileSize = value := by
  have only := file.size_only layout disk
  refine ⟨file.frame layout only, only, fun o within =>
    file.chainByte_size layout started disk within, ?_⟩
  rw [recorded_size layout w' file.regular.cluster.data (valid_small file.regular.cluster)
    file.regular.room, disk, ← Nat.add_assoc, getLittle_setLittle]
  exact Nat.mod_eq_of_lt small

/-- The disk behind a write that stays in one cluster. -/
theorem OnDisk.replaced {inode : IndexNode} (of_file : InodeOf inode location idx first)
    (started : first ≠ 0) (source : Memory) {position buf n : Nat}
    (less : position / fsbi.bytesPerCluster < len)
    (room : position % fsbi.bytesPerCluster + n ≤ fsbi.bytesPerCluster)
    (small : position + n < 2 ^ 32)
    (disk : w'.disk = written fsbi inode position n (copy source buf w.disk (512 * clusterSector fsbi
      (clusterAt fsbi w first (position / fsbi.bytesPerCluster)) +
        position % fsbi.bytesPerCluster) n)) :
    Replaced fsbi w w' own location idx first len inode source position buf n := by
  by_cases grows : position + n > inode.fileSize
  · rw [written, if_pos grows] at disk
    generalize piece : copy source buf w.disk (512 * clusterSector fsbi
        (clusterAt fsbi w first (position / fsbi.bytesPerCluster)) +
          position % fsbi.bytesPerCluster) n = middle at disk
    -- the bytes first, as in a file of this size already
    have bytes := @OnDisk.overwritten fsbi layout w { w with disk := middle } _ _ _ _ _ file
      (grown inode position n) started source position buf n less room
      (by rw [grown, if_pos grows]) piece.symm
    have new := grown_inode of_file position n
    have size := @putEntry_size fsbi layout { w with disk := middle } (grown inode position n)
      (by rw [new.cluster, new.place, new.started]; exact bytes.file.regular)
    rw [← disk, entryByte, new.cluster, new.place, grown, if_pos grows] at size
    obtain ⟨file', only', bytes', size'⟩ := bytes.file.resized layout small started size
    refine ⟨file', bytes.only.trans only', fun o within => ?_, ?_⟩
    · rw [bytes' o within, bytes.bytes o within]
    · rw [size', entrySize, if_pos grows]
  · rw [written, if_neg grows] at disk
    exact file.overwritten layout started source less room (by omega) disk

end write

end Fat32

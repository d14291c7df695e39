import Q2os.FileEntry

/- The chains of a volume in order: FAT32_read gives the bytes of the chain, and which sectors
   of the data area the reading calls ask the disk for. -/
namespace ChainReads
open ByteMemory BlockProgram UserMemory Fat32 UserPointers NameMatching

/-- A volume in order: a table behind the boot sector whose entry 0 is a mark, and sectors that
    clusters of 32 bits do not wrap. -/
structure WellFormed (fsbi : SbInfo) (w : World) : Prop where
  layout : Layout fsbi
  some_entries : 0 < fsbi.sectorPerFAT
  reserved : 0x0ffffff8 ≤ fatEntry fsbi w 0
  no_wrap : fsbi.dataFirstsector + 2 ^ 32 * fsbi.sectorPerCluster ≤ 2 ^ 64

/-- A file or directory on the volume: its chain, which has room for its size. The first cluster
    is 0 where it is empty or the root that an entry .. names. -/
structure Stored (fsbi : SbInfo) (w : World) (inode : IndexNode) (first len : Nat) : Prop where
  chain : Chain fsbi w first len
  named : inode.firstCluster ≠ 0 → inode.firstCluster = first ∧ 0 < len
  room : inode.fileSize ≤ len * fsbi.bytesPerCluster
  word : inode.fileSize < 2 ^ 32

theorem Stored.link_le {fsbi : SbInfo} {w : World} {inode : IndexNode} {first len position : Nat}
    (stored : Stored fsbi w inode first len) (well : WellFormed fsbi w)
    (within : position ≤ inode.fileSize) : position / fsbi.bytesPerCluster ≤ len := by
  have room := stored.room
  have some_bytes := well.layout.mounted.some_bytes
  exact Nat.div_le_of_le_mul (by rw [Nat.mul_comm]; omega)

theorem Stored.countable {fsbi : SbInfo} {w : World} {inode : IndexNode} {first len position : Nat}
    (stored : Stored fsbi w inode first len) (well : WellFormed fsbi w)
    (within : position ≤ inode.fileSize) : Countable fsbi position := by
  have word := stored.word
  have bytes := well.layout.bytes
  have some_sectors := well.layout.some_sectors
  have half := Nat.div_le_div_left (a := position) (by omega : 2 ≤ fsbi.bytesPerCluster) (by omega)
  unfold Fat32.Countable
  omega

/-- FAT32_read of a file with a first cluster returns the bytes from the position up to the
    count or the end of the file, for sizes below 2GB, and leaves the disk as it is. -/
theorem read_right_bytes {fsbi : SbInfo} {w : World} {inode : IndexNode} {first len : Nat}
    (well : WellFormed fsbi w) (stored : Stored fsbi w inode first len)
    (small : inode.fileSize < 2 ^ 31) (started : inode.firstCluster ≠ 0)
    {buf count position n : Nat} (n_eq : n = min count (inode.fileSize - position))
    (within : position ≤ inode.fileSize) (admitted : count < 2 ^ 63)
    (destination : Destination buf n) :
    ∃ w', run (FAT32Read fsbi inode buf count position) w =
        some (((n : Int), ((position + n : Nat) : Int)), w') ∧
      Delivered w w' buf n fun t => chainByte fsbi w inode.firstCluster (position + t) := by
  have room := stored.room
  obtain ⟨named, _⟩ := stored.named started
  apply run_FAT32Read well.layout n_eq started within (by omega) (by omega)
    (stored.countable well within) (by omega) destination
  intro i _ reach
  have less : i < len := by
    apply Nat.lt_of_mul_lt_mul_right (a := fsbi.bytesPerCluster)
    omega
  have data := (stored.chain.valid i less).data
  rw [named]
  omega

def fullDisk : World where
  disk := fun i => if 2048 ≤ i then 0x41 else if 1024 ≤ i ∧ i < 1036 then 0xff else 0
  memory := zeros
  fresh := []
  written := []
  touched := []

def fullInode : IndexNode := ⟨512, 2, 0, 0⟩

theorem full_well : WellFormed oneSectorVolume fullDisk :=
  ⟨oneSector_layout, by decide, by decide +kernel, by decide⟩

theorem full_stored : Stored oneSectorVolume fullDisk fullInode 2 1 := by
  refine ⟨⟨fun i less => ?_, by decide +kernel⟩, fun _ => ⟨rfl, by decide⟩, by decide, by decide⟩
  rw [Nat.lt_one_iff.mp less]
  exact ⟨by decide, (by decide : 2 < 128), by decide⟩

theorem read_right_bytes_full :
    ∃ w', run (FAT32Read oneSectorVolume fullInode 4096 100 500) fullDisk =
        some (((12 : Int), ((512 : Nat) : Int)), w') ∧
      Delivered fullDisk w' 4096 12 fun t => chainByte oneSectorVolume fullDisk 2 (500 + t) :=
  read_right_bytes full_well full_stored (by decide) (by decide) (by decide) (by decide) (by decide)
    (Or.inl (by decide : 4096 + 12 ≤ taskSize))

/-- The sectors of the data area among those of a request belong to clusters of a chain. -/
def OnChain (fsbi : SbInfo) (w : World) (first len sector count : Nat) : Prop :=
  ∀ x, sector ≤ x → x < sector + count → fsbi.dataFirstsector ≤ x → ∃ i < len,
    clusterSector fsbi (clusterAt fsbi w first i) ≤ x ∧
      x < clusterSector fsbi (clusterAt fsbi w first i) + fsbi.sectorPerCluster

section requests
variable {fsbi : SbInfo} {w : World} {first len : Nat}

theorem table_request (well : WellFormed fsbi w) {c : Nat} (inside : InTable fsbi c) :
    OnChain fsbi w first len (fsbi.FAT1Firstsector + c % 2 ^ 32 / 128) 1 := by
  have tables := well.layout.tables
  have whole : fsbi.sectorPerFAT ≤ fsbi.numFATs * fsbi.sectorPerFAT :=
    Nat.le_mul_of_pos_left _ well.layout.some_table
  intro x _ high data
  rw [inTable_word well.layout inside] at high
  unfold InTable at inside
  omega

theorem cluster_request {i : Nat} (less : i < len) :
    OnChain fsbi w first len (clusterSector fsbi (clusterAt fsbi w first i))
      fsbi.sectorPerCluster :=
  fun _ low high _ => ⟨i, less, low, high⟩

theorem far_request (well : WellFormed fsbi w) (chain : Chain fsbi w first len) {sector : Nat}
    (far : fsbi.dataFirstsector + (0x0ffffff8 - 2) * fsbi.sectorPerCluster ≤ sector) :
    ¬ OnChain fsbi w first len sector fsbi.sectorPerCluster := by
  intro claim
  have some_sectors := well.layout.some_sectors
  obtain ⟨i, less, _, high⟩ := claim sector (Nat.le_refl _) (by omega) (by omega)
  have valid := chain.valid i less
  have mark := valid.no_mark
  have data := valid.data
  rw [clusterSector_eq well.layout data (valid_small valid)] at high
  have before : (clusterAt fsbi w first i - 2 + 1) * fsbi.sectorPerCluster ≤
      (0x0ffffff8 - 2) * fsbi.sectorPerCluster := Nat.mul_le_mul_right _ (by omega)
  rw [Nat.add_mul, Nat.one_mul] at before
  omega

theorem mark_request (well : WellFormed fsbi w) (chain : Chain fsbi w first len)
    (some_clusters : 0 < len) :
    ¬ OnChain fsbi w first len (clusterSector fsbi (clusterAt fsbi w first len))
      fsbi.sectorPerCluster := by
  have mark := chain.ends
  have small : clusterAt fsbi w first len < 2 ^ 28 := by
    obtain ⟨n, rfl⟩ : ∃ n, len = n + 1 := ⟨len - 1, by omega⟩
    rw [clusterAt_succ]
    exact fatEntry_lt fsbi w _
  have behind : (0x0ffffff8 - 2) * fsbi.sectorPerCluster ≤
    (clusterAt fsbi w first len - 2) * fsbi.sectorPerCluster := Nat.mul_le_mul_right _ (by omega)
  apply far_request well chain
  rw [clusterSector_eq well.layout (by omega) small]
  omega

theorem zero_request (well : WellFormed fsbi w) (chain : Chain fsbi w first len) :
    ¬ OnChain fsbi w first len (directorySector fsbi 0) fsbi.sectorPerCluster := by
  have some_sectors := well.layout.some_sectors
  have no_wrap := well.no_wrap
  apply far_request well chain
  have turn : (0 + (2 ^ 32 - 2)) % 2 ^ 32 = 2 ^ 32 - 2 := by decide
  rw [directorySector, turn, Nat.mod_eq_of_lt (by omega)]
  omega

end requests

/- Only sectors of the data area fail: a sector of the table that did would be read as 0. -/
def DataOnly (fsbi : SbInfo) (refused : Nat → Prop) : Prop :=
  ∀ sector, refused sector → fsbi.dataFirstsector ≤ sector

/-- A program asks for no sector of the data area off a chain, whatever reads of the data area
    fail. -/
def Stays {α : Type} (refused : Nat → Prop) (fsbi : SbInfo) (w : World) (first len : Nat)
    (p : Prog α) : Prop :=
  Asks refused (OnChain fsbi w first len) p w fun _ _ => True

section asked
variable {fsbi : SbInfo} {w w' : World} {first len : Nat} {refused : Nat → Prop}

theorem asks_readFATEntry (well : WellFormed fsbi w) (data : DataOnly fsbi refused) {c : Nat}
    (inside : InTable fsbi c) (post : Nat → World → Prop) :
    Asks refused (OnChain fsbi w first len) (DISK1FAT32ReadFATEntry fsbi c) w' post ↔
      post (fatEntry fsbi w' c) w' := by
  have asked := @table_request fsbi w first len well c inside
  have answered : ¬ refused (fsbi.FAT1Firstsector + c % 2 ^ 32 / 128) := by
    intro refusal
    have behind := data _ refusal
    have tables := well.layout.tables
    have whole : fsbi.sectorPerFAT ≤ fsbi.numFATs * fsbi.sectorPerFAT :=
      Nat.le_mul_of_pos_left _ well.layout.some_table
    rw [inTable_word well.layout inside] at behind
    unfold InTable at inside
    omega
  simp only [DISK1FAT32ReadFATEntry, asks_bind, asks_readSectors, asks_pure]
  constructor
  · intro both
    exact both.2.2
  · intro entry
    exact ⟨asked, fun refusal => absurd refusal answered, entry⟩

theorem asks_walkChain (well : WellFormed fsbi w) (data : DataOnly fsbi refused)
    (chain : Chain fsbi w first len) (same : w'.disk = w.disk) {k n : Nat} (within : k + n ≤ len)
    (post : Nat → World → Prop) :
    Asks refused (OnChain fsbi w first len) (walkChain fsbi n (clusterAt fsbi w first k)) w' post ↔
      post (clusterAt fsbi w first (k + n)) w' := by
  induction n generalizing k with
  | zero => exact Iff.rfl
  | succ n ih =>
    have next := @ih (k + 1) (by omega)
    have place : k + 1 + n = k + (n + 1) := by omega
    rw [clusterAt_succ, place] at next
    rw [walkChain, asks_bind, asks_readFATEntry well data (chain.valid k (by omega)).in_table,
      fatEntry_disk same]
    exact next

theorem asks_copyOut (ok : Nat → Nat → Prop) (buffer : Memory) {offset index : Int} (buf : Nat) :
    (∀ post, (∀ w', post () w') → Asks refused ok (copyOut fsbi buffer offset buf index) w post) ∧
      (0 ≤ offset → 0 ≤ index → offset + index ≤ fsbi.bytesPerCluster → index < 2 ^ 31 →
        ∃ w', w'.disk = w.disk ∧ ∀ post,
          Asks refused ok (copyOut fsbi buffer offset buf index) w post ↔ post () w') := by
  unfold copyOut
  by_cases nothing : pieceSize buf index = 0
  · simp only [if_pos nothing, asks_pure]
    exact ⟨fun post all => all w, fun _ _ _ _ => ⟨w, rfl, fun _ => Iff.rfl⟩⟩
  · simp only [if_neg nothing, asks_bind, asks_store]
    constructor
    · intro post all
      split
      · exact all _
      · trivial
    · intro start forward fits small
      obtain ⟨n, rfl⟩ : ∃ n : Nat, index = n := ⟨index.toNat, by omega⟩
      have inside : Inside fsbi offset (pieceSize buf n) := by
        have below := @pieceSize_le buf n (by omega)
        exact ⟨start, by omega⟩
      simp only [if_pos inside, asks_pure]
      refine ⟨_, ?_, fun _ => Iff.rfl⟩
      rfl

/-- The loop of FAT32_read from cluster k of the chain on stays on it exactly if the bytes it
    is to read end there. -/
theorem asks_readPieces (well : WellFormed fsbi w) (data : DataOnly fsbi refused)
    (chain : Chain fsbi w first len) (some_clusters : 0 < len) {fuel k room buf : Nat}
    {index offset position : Int} (same : w'.disk = w.disk) (enough : index.toNat < fuel)
    (h : Room fsbi offset room) (small : index < 2 ^ 31) (within : k ≤ len) :
    Asks refused (OnChain fsbi w first len)
        (readPieces fsbi fuel (clusterAt fsbi w first k) index offset buf position) w'
        (fun _ _ => True) ↔
      k < len ∧ (k * fsbi.bytesPerCluster : Nat) + (offset + index) ≤
        (len * fsbi.bytesPerCluster : Nat) := by
  have mounted := well.layout.mounted
  have start := h.start
  have fits := h.fits
  have some_room := h.some_room
  induction fuel generalizing k room buf index offset position w' with
  | zero => omega
  | succ fuel ih =>
    simp only [readPieces, asks_bind, asks_readSectors, asks_pure]
    by_cases off : k = len
    · rw [off]
      have asked := mark_request well chain some_clusters
      constructor
      · intro both
        exact absurd both.1 asked
      · intro both
        omega
    · have asked := @cluster_request fsbi w first len k (by omega)
      have below : (k + 1) * fsbi.bytesPerCluster ≤ len * fsbi.bytesPerCluster :=
        Nat.mul_le_mul_right _ (by omega)
      rw [Nat.add_mul, Nat.one_mul] at below
      simp only [asked, implies_true, true_and]
      by_cases last : index ≤ room
      · have always : Asks refused (OnChain fsbi w first len) (copyOut fsbi (clusterBuffer fsbi
            (w'.sectors (clusterSector fsbi (clusterAt fsbi w first k)))) offset buf index) w'
            fun _ _ => True := (asks_copyOut _ _ buf).1 _ fun _ => trivial
        simp only [pieceLength_last h last, Int.sub_self, ↓reduceIte, asks_pure, always, true_iff]
        omega
      · have unfinished : ¬ index - room = 0 := by omega
        obtain ⟨w₁, disk, copied⟩ := (@asks_copyOut fsbi w' refused (OnChain fsbi w first len)
          (clusterBuffer fsbi (w'.sectors (clusterSector fsbi (clusterAt fsbi w first k))))
          offset room buf).2 start (by omega) (by omega) (by omega)
        have linked : clusterAt fsbi w first (k + 1) ≠ 0 := by
          by_cases next : k + 1 < len
          · have used := (chain.valid _ next).data
            omega
          · have last_link : k + 1 = len := by omega
            have mark := chain.ends
            rw [last_link]
            omega
        have rest := @ih w₁ (k + 1) fsbi.bytesPerCluster (advance buf room) (index - room) 0
          (position + room) (disk.trans same) (by omega) (room_whole mounted) (by omega) (by omega)
          (by omega) (by omega) mounted.some_bytes
        simp only [pieceLength_more mounted h last, if_neg unfinished, copied, asks_bind,
          asks_readFATEntry well data (chain.valid k (by omega)).in_table,
          fatEntry_disk (disk.trans same), ← clusterAt_succ, if_neg linked, rest]
        rw [Nat.add_mul, Nat.one_mul]
        constructor
        · intro both
          omega
        · intro both
          constructor
          · by_contra past
            have last_link : len = k + 1 := by omega
            rw [last_link, Nat.add_mul, Nat.one_mul] at both
            omega
          · omega

theorem read_stays_iff (well : WellFormed fsbi w) (data : DataOnly fsbi refused)
    {inode : IndexNode} (stored : Stored fsbi w inode first len) {buf count position : Nat}
    (within : position ≤ inode.fileSize) (word : count < 2 ^ 64) :
    Stays refused fsbi w first len (FAT32Read fsbi inode buf count position) ↔
      inode.firstCluster = 0 ∨ position / fsbi.bytesPerCluster < len ∧
        (position + count < 2 ^ 64 ∨
          position + toInt32 count ≤ (len * fsbi.bytesPerCluster : Nat)) := by
  have mounted := well.layout.mounted
  have not_zero : ¬ fsbi.bytesPerCluster = 0 := Nat.ne_of_gt mounted.some_bytes
  unfold Stays FAT32Read
  simp only [if_neg not_zero, asks_bind, asks_alloc, links_eq (stored.countable well within),
    Int.toNat_natCast]
  by_cases empty : inode.firstCluster = 0
  · simp only [empty, ↓reduceIte, asks_pure, true_or]
  · obtain ⟨named, some_clusters⟩ := stored.named empty
    have walked := @asks_walkChain fsbi w { w with fresh := w.fresh.tail } first len refused well data
      stored.chain rfl 0 (position / fsbi.bytesPerCluster)
      (by rw [Nat.zero_add]; exact stored.link_le well within)
    rw [Nat.zero_add] at walked
    have room := stored.room
    have size := stored.word
    have split := Nat.div_add_mod' position fsbi.bytesPerCluster
    have offset : (position : Int).tmod fsbi.bytesPerCluster =
        (position % fsbi.bytesPerCluster : Nat) := rfl
    generalize counted : (if ((((position : Int) + count) % 2 ^ 64).toNat > inode.fileSize)
      then (((inode.fileSize : Int) - position) % 2 ^ 64).toNat else count) = moved
    have clipped : position + count < 2 ^ 64 → moved ≤ inode.fileSize - position := by
      intro short
      rw [← counted]
      split
      · omega
      · omega
    have whole : ¬ position + count < 2 ^ 64 → moved = count := by
      intro wraps
      rw [← counted]
      exact if_neg (by omega)
    have loop := @asks_readPieces fsbi w { w with fresh := w.fresh.tail } first len refused well data
      stored.chain some_clusters ((toInt32 moved).toNat + 1) (position / fsbi.bytesPerCluster) _ buf
      (toInt32 moved) _ position rfl (Nat.lt_succ_self _)
      (@room_at fsbi mounted (position : Int) (Int.natCast_nonneg _))
      (toInt32_bounds moved).2 (stored.link_le well within)
    have below := toInt32_le moved
    rw [named] at empty ⊢
    simp only [if_neg empty, asks_bind]
    refine (walked _).trans (loop.trans ?_)
    rw [offset]
    clear walked loop counted
    generalize index_eq : toInt32 moved = index at below
    by_cases short : position + count < 2 ^ 64
    · have fits := clipped short
      constructor
      · intro both
        exact Or.inr ⟨both.1, Or.inl short⟩
      · intro either
        exact ⟨(either.resolve_left empty).1, by omega⟩
    · rw [← whole short, index_eq]
      constructor
      · intro both
        exact Or.inr ⟨both.1, Or.inr (by omega)⟩
      · intro either
        obtain ⟨less, fits⟩ := either.resolve_left empty
        exact ⟨less, by omega⟩

theorem directory_request (well : WellFormed fsbi w) (chain : Chain fsbi w first len) {k : Nat}
    (less : k < len) : OnChain fsbi w first len
      (directorySector fsbi (clusterAt fsbi w first k)) fsbi.sectorPerCluster := by
  have valid := chain.valid k less
  rw [directorySector_eq well.layout valid.data (valid_small valid)]
  exact cluster_request less

theorem next_less (chain : Chain fsbi w first len) {k : Nat} (less : k < len)
    (more : clusterAt fsbi w first (k + 1) < 0x0ffffff7) : k + 1 < len := by
  have mark := chain.ends
  by_contra past
  have last : k + 1 = len := by omega
  rw [last] at more
  omega

theorem lookupFrom_stays (well : WellFormed fsbi w) (data : DataOnly fsbi refused)
    (chain : Chain fsbi w first len) (same : w'.disk = w.disk) (before block : Memory)
    (d : Component) (fuel : Nat) {k : Nat} (less : k < len) :
    Asks refused (OnChain fsbi w first len)
      (lookupFrom fsbi before block d fuel (clusterAt fsbi w first k)) w' fun _ _ => True := by
  induction fuel generalizing k block with
  | zero => trivial
  | succ fuel ih =>
    simp only [lookupFrom, asks_bind, asks_readSectors]
    refine ⟨directory_request well chain less, fun _ => trivial, ?_⟩
    split
    · trivial
    · rw [asks_bind, asks_readFATEntry well data (chain.valid k less).in_table, fatEntry_disk same,
        ← clusterAt_succ]
      split
      · rename_i more
        exact ih _ (next_less chain less more)
      · trivial

theorem lookup_stays_iff (well : WellFormed fsbi w) (data : DataOnly fsbi refused)
    {inode : IndexNode} (stored : Stored fsbi w inode first len) (d : Component) {fuel : Nat}
    (fuelled : 0 < fuel) :
    Stays refused fsbi w first len (FAT32Lookup fuel fsbi inode.firstCluster d) ↔
      inode.firstCluster ≠ 0 := by
  unfold Stays FAT32Lookup
  simp only [asks_bind, asks_alloc]
  by_cases empty : inode.firstCluster = 0
  · obtain ⟨fuel, rfl⟩ : ∃ n, fuel = n + 1 := ⟨fuel - 1, by omega⟩
    have off := zero_request well stored.chain
    simp only [empty, Nat.zero_mod, lookupFrom, asks_bind, asks_readSectors, off, false_and, ne_eq,
      not_true_eq_false]
  · obtain ⟨named, some_clusters⟩ := stored.named empty
    have small := valid_small (stored.chain.valid 0 some_clusters)
    have word : first % 2 ^ 32 = first := Nat.mod_eq_of_lt (by unfold clusterAt at small; omega)
    have stays := @lookupFrom_stays fsbi w { w with fresh := w.fresh.tail.tail } first len refused
      well data stored.chain rfl (w.fresh.headD fun _ => 0) (w.fresh.tail.headD fun _ => 0) d fuel 0
      some_clusters
    rw [named, word]
    exact ⟨fun _ => named ▸ empty, fun _ => stays⟩

theorem readdirFrom_stays (well : WellFormed fsbi w) (data : DataOnly fsbi refused)
    (chain : Chain fsbi w first len) (same : w'.disk = w.disk) (before block : Memory)
    (fuel : Nat) {k : Nat} (position : Int) (less : k < len) :
    Asks refused (OnChain fsbi w first len)
      (readdirFrom fsbi before block fuel (clusterAt fsbi w first k) position) w'
      fun _ _ => True := by
  induction fuel generalizing k block position with
  | zero => trivial
  | succ fuel ih =>
    simp only [readdirFrom, asks_bind, asks_readSectors]
    refine ⟨directory_request well chain less, fun _ => trivial, ?_⟩
    split
    · trivial
    · rw [asks_bind, asks_readFATEntry well data (chain.valid k less).in_table, fatEntry_disk same,
        ← clusterAt_succ]
      split
      · rename_i more
        exact ih _ _ (next_less chain less more)
      · trivial

/- The walk to the cluster of a position ends on the chain or before the mark. -/
theorem asks_seekCluster (well : WellFormed fsbi w) (data : DataOnly fsbi refused)
    (chain : Chain fsbi w first len) (same : w'.disk = w.disk) {n k : Nat} (less : k < len)
    {post : Option Nat → World → Prop} (missing : post none w')
    (there : k + n < len → post (some (clusterAt fsbi w first (k + n))) w') :
    Asks refused (OnChain fsbi w first len) (seekCluster fsbi n (clusterAt fsbi w first k)) w'
      post := by
  induction n generalizing k with
  | zero => exact there less
  | succ n ih =>
    rw [seekCluster, asks_bind, asks_readFATEntry well data (chain.valid k less).in_table,
      fatEntry_disk same, ← clusterAt_succ]
    split
    · exact missing
    · rename_i linked
      have place : k + 1 + n = k + (n + 1) := by omega
      apply ih
      · by_contra past
        have mark := chain.ends
        have last : k + 1 = len := by omega
        rw [last] at linked
        omega
      · rw [place]
        exact there

theorem readdir_stays_iff (well : WellFormed fsbi w) (data : DataOnly fsbi refused)
    {inode : IndexNode} (stored : Stored fsbi w inode first len) {fuel : Nat} {position : Int}
    (fuelled : 0 < fuel) :
    Stays refused fsbi w first len (FAT32Readdir fuel fsbi inode.firstCluster position) ↔
      inode.firstCluster ≠ 0 ∨ 0 < walkLength fsbi position := by
  have not_zero : ¬ fsbi.bytesPerCluster = 0 := Nat.ne_of_gt well.layout.mounted.some_bytes
  unfold Stays FAT32Readdir
  simp only [if_neg not_zero, asks_bind, asks_alloc]
  by_cases empty : inode.firstCluster = 0
  · obtain ⟨fuel, rfl⟩ : ∃ n, fuel = n + 1 := ⟨fuel - 1, by omega⟩
    have off := zero_request well stored.chain
    simp only [empty, Nat.zero_mod, ne_eq, not_true_eq_false, false_or]
    cases walkLength fsbi position with
    | zero =>
      simp only [seekCluster, asks_pure, readdirFrom, asks_bind, asks_readSectors, off, false_and,
        Nat.lt_irrefl]
    | succ n =>
      have zero : InTable fsbi 0 := by
        have entries := well.some_entries
        unfold InTable
        omega
      have mark : fatEntry fsbi { w with fresh := w.fresh.tail.tail } 0 > 0x0ffffff7 := by
        have reserved := well.reserved
        rw [@fatEntry_disk fsbi w { w with fresh := w.fresh.tail.tail } rfl]
        omega
      simp only [seekCluster, asks_bind, asks_readFATEntry well data zero, if_pos mark, asks_pure,
        Nat.succ_pos]
  · obtain ⟨named, some_clusters⟩ := stored.named empty
    have small := valid_small (stored.chain.valid 0 some_clusters)
    have word : first % 2 ^ 32 = first := Nat.mod_eq_of_lt (by unfold clusterAt at small; omega)
    rw [named] at empty ⊢
    rw [word]
    refine ⟨fun _ => Or.inl empty, fun _ => ?_⟩
    apply @asks_seekCluster fsbi w { w with fresh := w.fresh.tail.tail } first len refused well data
      stored.chain rfl _ 0 some_clusters
    · trivial
    · intro less
      dsimp only
      rw [asks_bind]
      refine asks_mono (@readdirFrom_stays fsbi w { w with fresh := w.fresh.tail.tail } first len
        refused well data stored.chain rfl _ _ fuel _ position less) fun found _ _ => ?_
      obtain ⟨entry, position⟩ := found
      cases entry with
      | none => trivial
      | some entry =>
        dsimp only
        split
        · trivial
        · trivial

end asked

/-- On a volume in order, with the table readable: FAT32_read asks for sectors of its file alone
    unless the position is behind the last cluster, or the count wraps the end of the address
    space and goes past it; FAT32_lookup and FAT32_readdir do unless the first cluster is 0,
    and with that FAT32_readdir does where it walks to another cluster. -/
theorem reads_on_chain_iff {fsbi : SbInfo} {w : World} {inode : IndexNode} {first len : Nat}
    (well : WellFormed fsbi w) (stored : Stored fsbi w inode first len) {refused : Nat → Prop}
    (data : DataOnly fsbi refused) :
    (∀ buf count position : Nat, position ≤ inode.fileSize → count < 2 ^ 64 →
      (Stays refused fsbi w first len (FAT32Read fsbi inode buf count position) ↔
        inode.firstCluster = 0 ∨ position / fsbi.bytesPerCluster < len ∧
          (position + count < 2 ^ 64 ∨
            position + toInt32 count ≤ (len * fsbi.bytesPerCluster : Nat)))) ∧
    (∀ (d : Component) (fuel : Nat), 0 < fuel →
      (Stays refused fsbi w first len (FAT32Lookup fuel fsbi inode.firstCluster d) ↔
        inode.firstCluster ≠ 0)) ∧
    (∀ (position : Int) (fuel : Nat), 0 < fuel →
      (Stays refused fsbi w first len (FAT32Readdir fuel fsbi inode.firstCluster position) ↔
        inode.firstCluster ≠ 0 ∨ 0 < walkLength fsbi position)) :=
  ⟨fun _ _ _ within word => read_stays_iff well data stored within word,
    fun d _ fuelled => lookup_stays_iff well data stored d fuelled,
    fun _ _ fuelled => readdir_stays_iff well data stored fuelled⟩

theorem none_refused : DataOnly oneSectorVolume fun _ => False := fun _ refusal => refusal.elim

theorem reads_on_chain_full :
    Stays (fun _ => False) oneSectorVolume fullDisk 2 1
        (FAT32Read oneSectorVolume fullInode 4096 100 500) ∧
      ¬ Stays (fun _ => False) oneSectorVolume fullDisk 2 1
        (FAT32Read oneSectorVolume fullInode 4096 100 512) := by
  have calls := (reads_on_chain_iff full_well full_stored none_refused).1
  constructor
  · exact (calls 4096 100 500 (by decide) (by decide)).mpr (Or.inr ⟨by decide, Or.inl (by decide)⟩)
  · intro stays
    rcases (calls 4096 100 512 (by decide) (by decide)).mp stays with empty | inside
    · exact absurd empty (by decide)
    · exact absurd inside.1 (by decide)

/- Reading on at the end of a file that fills its clusters, and the root through an entry .. -/
theorem reads_leave_chain :
    ¬ (∀ (fsbi : SbInfo) (w : World) (inode : IndexNode) (first len buf count position : Nat),
        WellFormed fsbi w → Stored fsbi w inode first len → position ≤ inode.fileSize →
          count < 2 ^ 64 → Stays (fun _ => False) fsbi w first len
            (FAT32Read fsbi inode buf count position)) ∧
      ¬ (∀ (fsbi : SbInfo) (w : World) (inode : IndexNode) (first len fuel : Nat) (d : Component),
        WellFormed fsbi w → Stored fsbi w inode first len →
          Stays (fun _ => False) fsbi w first len (FAT32Lookup fuel fsbi inode.firstCluster d)) := by
  have root : Stored oneSectorVolume fullDisk ⟨0, 0, 0, 0⟩ 2 1 :=
    ⟨full_stored.chain, fun other => absurd rfl other, by decide, by decide⟩
  constructor
  · intro claim
    have stays := claim oneSectorVolume fullDisk fullInode 2 1 4096 1 512 full_well full_stored
      (by decide) (by decide)
    rcases (@read_stays_iff _ _ _ _ _ full_well none_refused _ full_stored 4096 1 512 (by decide)
      (by decide)).mp stays with empty | inside
    · exact absurd empty (by decide)
    · exact absurd inside.1 (by decide)
  · intro claim
    have stays := claim oneSectorVolume fullDisk ⟨0, 0, 0, 0⟩ 2 1 1 readmeTxtx full_well root
    exact (lookup_stays_iff full_well none_refused root readmeTxtx (by decide)).mp stays rfl

end ChainReads

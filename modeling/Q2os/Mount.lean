import Q2os.DirectorySearch
import Q2os.Kmalloc
import Q2os.UserPointers

/- Mounting a volume: what fat32_read_superblock makes of a boot sector, and for which of them
   the calls on the volume stay inside their buffers. -/
namespace Mount
open ByteMemory BlockProgram Fat32 UserPointers NameMatching

def bpbBytesPerSec (buf : Memory) : Nat := getLittle buf 11 2
def bpbSecPerClus (buf : Memory) : Nat := getLittle buf 13 1
def bpbRsvdSecCnt (buf : Memory) : Nat := getLittle buf 14 2
def bpbNumFATs (buf : Memory) : Nat := getLittle buf 16 1
def bpbFATSz32 (buf : Memory) : Nat := getLittle buf 36 4
def bpbRootClus (buf : Memory) : Nat := getLittle buf 44 4
def bpbFSInfo (buf : Memory) : Nat := getLittle buf 48 2

/- struct super_block with the struct FAT32_sb_info and the inode of the root behind it. -/
structure SuperBlock where
  fsbi : SbInfo
  bytesPerSector : Nat
  root : IndexNode

def superBlock (startLBA sectorsLimit : Nat) (buf : Memory) : SuperBlock where
  fsbi :=
    { startSector := startLBA
      sectorCount := sectorsLimit
      sectorPerCluster := bpbSecPerClus buf
      bytesPerCluster := bpbSecPerClus buf * bpbBytesPerSec buf
      dataFirstsector :=
        (startLBA + bpbRsvdSecCnt buf + bpbFATSz32 buf * bpbNumFATs buf) % 2 ^ 32
      FAT1Firstsector := (startLBA + bpbRsvdSecCnt buf) % 2 ^ 32
      sectorPerFAT := bpbFATSz32 buf
      numFATs := bpbNumFATs buf }
  bytesPerSector := bpbBytesPerSec buf
  root := ⟨0, bpbRootClus buf, 0, 0⟩

/- The blocks of the root are counted by a division by bytes_per_sector. -/
def fat32ReadSuperblock (startLBA sectorsLimit : Nat) (buf : Memory) : Prog SuperBlock := do
  let _ ← readSectors ((startLBA + bpbFSInfo buf) % 2 ^ 32) 1
  if bpbBytesPerSec buf = 0 then .fault else return superBlock startLBA sectorsLimit buf

def EntryInside (fsbi : SbInfo) (i : Int) : Prop := 0 ≤ i ∧ i + 32 ≤ fsbi.bytesPerCluster

instance (fsbi : SbInfo) (i : Int) : Decidable (EntryInside fsbi i) :=
  inferInstanceAs (Decidable (_ ∧ _))

/- The search for the first entry with a property; none where it looks at an entry outside. -/
def searchInside (fsbi : SbInfo) (taken : Int → Bool) : Nat → Int → Option (Option Int)
  | 0, _ => some none
  | left + 1, i =>
    if EntryInside fsbi i then
      if taken i then some (some i) else searchInside fsbi taken left (i + 32)
    else none

/- FAT32_lookup from a cluster on, over so many clusters; a fault where it divides by zero or
   looks at an entry outside its block. -/
def lookupChecked (sb : SuperBlock) (before block : Memory) (d : Component) :
    Nat → Nat → Prog (Option Found)
  | 0, _ => return none
  | rounds + 1, cluster => do
    match ← readSectors (directorySector sb.fsbi cluster) sb.fsbi.sectorPerCluster with
    | none => return none
    | some reply =>
      let buf := copy reply 0 block 0 (512 * sb.fsbi.sectorPerCluster)
      let v := around before buf
      match searchInside sb.fsbi (fun i => live v i && compareName v i d)
          (entriesFrom sb.fsbi 0) 0 with
      | none => .fault
      | some (some p) =>
        if sb.bytesPerSector = 0 then .fault else return some (foundAt v cluster p)
      | some none =>
        let next ← DISK1FAT32ReadFATEntry sb.fsbi cluster
        if next < 0x0ffffff7 then lookupChecked sb before buf d rounds next else return none

def FAT32LookupChecked (rounds : Nat) (sb : SuperBlock) (firstCluster : Nat) (d : Component) :
    Prog (Option Found) := do
  let before ← alloc
  let block ← alloc
  lookupChecked sb before block d rounds (firstCluster % 2 ^ 32)

/- The same for FAT32_readdir from a cluster and a position on. -/
def readdirChecked (fsbi : SbInfo) (before block : Memory) :
    Nat → Nat → Int → Prog (Option (View × Int) × Int)
  | 0, _, position => return (none, position)
  | rounds + 1, cluster, position => do
    match ← readSectors (directorySector fsbi cluster) fsbi.sectorPerCluster with
    | none => return (none, position)
    | some reply =>
      let buf := copy reply 0 block 0 (512 * fsbi.sectorPerCluster)
      let v := around before buf
      let i := position.tmod fsbi.bytesPerCluster
      match searchInside fsbi (live v) (entriesFrom fsbi i) i with
      | none => .fault
      | some (some p) => return (some (v, p), position + (p - i) + 32)
      | some none =>
        let position := position + 32 * entriesFrom fsbi i
        let next ← DISK1FAT32ReadFATEntry fsbi cluster
        if next < 0x0ffffff7 then readdirChecked fsbi before buf rounds next position
        else return (none, position)

def FAT32ReaddirChecked (rounds : Nat) (fsbi : SbInfo) (firstCluster : Nat) (position : Int) :
    Prog (Option (View × Int) × Int) := do
  if fsbi.bytesPerCluster = 0 then .fault
  let before ← alloc
  let block ← alloc
  match ← seekCluster fsbi (walkLength fsbi position) (firstCluster % 2 ^ 32) with
  | none => return (none, position)
  | some cluster => readdirChecked fsbi before block rounds cluster position

/- A transfer moves 512 bytes a sector: sector_per_cluster of them to or from a block of
   bytes_per_cluster bytes, one to or from the buffer for a sector of the table. -/
def Fits (fsbi : SbInfo) (count : Nat) : Prop :=
  if count = fsbi.sectorPerCluster then 512 * count ≤ fsbi.bytesPerCluster else count = 1

/-- No division by zero and no access outside a block, every transfer fits its buffer and every
    block of bytes_per_cluster bytes is one that kmalloc has, whatever the device answers and
    whatever memory holds. -/
def Harmless {α : Type} (fsbi : SbInfo) : Prog α → (α → Prop) → Prop
  | .ret value, post => post value
  | .readSectors _ count next, post =>
    Fits fsbi count ∧ ∀ reply, Harmless fsbi (next reply) post
  | .writeSectors _ count _ next, post =>
    Fits fsbi count ∧ ∀ done, Harmless fsbi (next done) post
  | .load _ _ next, post => ∀ memory, Harmless fsbi (next memory) post
  | .store _ _ _ next, post => Harmless fsbi next post
  | .alloc next, post =>
    fsbi.bytesPerCluster ≤ Kmalloc.cacheSize 15 ∧ ∀ block, Harmless fsbi (next block) post
  | .fault, _ => False

/-- The calls on a volume are harmless: for reads and writes from a position on whose count is no
    negative int, and for FAT32_readdir from an entry on. Every entry FAT32_lookup finds is one
    that fat32_write_inode writes inside its block. -/
structure Usable (sb : SuperBlock) : Prop where
  read : ∀ (inode : IndexNode) (buf count position : Nat),
    0 ≤ toInt32 (readCount inode position count) →
      Harmless sb.fsbi (FAT32Read sb.fsbi inode buf count position) fun _ => True
  write : ∀ (inode : IndexNode) (buf count position : Nat), 0 ≤ toInt32 count →
    Harmless sb.fsbi (FAT32Write sb.fsbi inode buf count position) fun _ => True
  lookup : ∀ (rounds firstCluster : Nat) (d : Component),
    Harmless sb.fsbi (FAT32LookupChecked rounds sb firstCluster d) fun found =>
      ∀ f, found = some f → EntryInside sb.fsbi (32 * f.inode.dentryPosition)
  readdir : ∀ (rounds firstCluster position : Nat), position % 32 = 0 →
    Harmless sb.fsbi (FAT32ReaddirChecked rounds sb.fsbi firstCluster position) fun _ => True

/-- What the boot sector has to say for that. -/
structure Fit (buf : Memory) : Prop where
  clusters : bpbSecPerClus buf ≠ 0
  sectors : 512 ≤ bpbBytesPerSec buf
  entries : bpbSecPerClus buf * bpbBytesPerSec buf % 32 = 0
  block : bpbSecPerClus buf * bpbBytesPerSec buf ≤ Kmalloc.cacheSize 15

section rules
variable {α β : Type} (fsbi : SbInfo)

@[simp] theorem harmless_pure (value : α) (post : α → Prop) :
    Harmless fsbi (pure value) post ↔ post value := Iff.rfl

@[simp] theorem harmless_readSectors (sector count : Nat) (post : Option Memory → Prop) :
    Harmless fsbi (readSectors sector count) post ↔ Fits fsbi count ∧ ∀ reply, post reply := Iff.rfl

@[simp] theorem harmless_writeSectors (sector count : Nat) (data : Memory) (post : Bool → Prop) :
    Harmless fsbi (writeSectors sector count data) post ↔ Fits fsbi count ∧ ∀ done, post done :=
  Iff.rfl

@[simp] theorem harmless_load (addr size : Nat) (post : Memory → Prop) :
    Harmless fsbi (load addr size) post ↔ ∀ memory, post memory := Iff.rfl

@[simp] theorem harmless_store (addr size : Nat) (data : Memory) (post : Unit → Prop) :
    Harmless fsbi (store addr size data) post ↔ post () := Iff.rfl

@[simp] theorem harmless_alloc (post : Memory → Prop) :
    Harmless fsbi alloc post ↔
      fsbi.bytesPerCluster ≤ Kmalloc.cacheSize 15 ∧ ∀ block, post block := Iff.rfl

@[simp] theorem harmless_fault (post : α → Prop) : Harmless fsbi .fault post ↔ False := Iff.rfl

@[simp] theorem harmless_bind (p : Prog α) (f : α → Prog β) (post : β → Prop) :
    Harmless fsbi (p >>= f) post ↔ Harmless fsbi p fun a => Harmless fsbi (f a) post := by
  induction p with
  | ret value => exact Iff.rfl
  | readSectors sector count next ih => exact and_congr_right' (forall_congr' fun reply => ih reply)
  | writeSectors sector count data next ih =>
    exact and_congr_right' (forall_congr' fun done => ih done)
  | load addr size next ih => exact forall_congr' fun memory => ih memory
  | store addr size data next ih => exact ih
  | alloc next ih => exact and_congr_right' (forall_congr' fun block => ih block)
  | fault => exact Iff.rfl

theorem harmless_mono {fsbi : SbInfo} {p : Prog α} {post other : α → Prop}
    (h : Harmless fsbi p post) (weaker : ∀ a, post a → other a) : Harmless fsbi p other := by
  induction p with
  | ret value => exact weaker value h
  | readSectors sector count next ih => exact ⟨h.1, fun reply => ih reply (h.2 reply)⟩
  | writeSectors sector count data next ih => exact ⟨h.1, fun done => ih done (h.2 done)⟩
  | load addr size next ih => exact fun memory => ih memory (h memory)
  | store addr size data next ih => exact ih h
  | alloc next ih => exact ⟨h.1, fun block => ih block (h.2 block)⟩
  | fault => exact h

end rules

/- What the calls need of the parameters of a volume. -/
structure Geometry (fsbi : SbInfo) : Prop where
  mounted : Mounted fsbi
  transfers : 512 * fsbi.sectorPerCluster ≤ fsbi.bytesPerCluster
  entries : fsbi.bytesPerCluster % 32 = 0
  block : fsbi.bytesPerCluster ≤ Kmalloc.cacheSize 15

section geometry
variable {fsbi : SbInfo}

theorem Geometry.cluster (geometry : Geometry fsbi) : Fits fsbi fsbi.sectorPerCluster := by
  rw [Fits, if_pos rfl]
  exact geometry.transfers

theorem Geometry.table (geometry : Geometry fsbi) : Fits fsbi 1 := by
  have transfers := geometry.transfers
  unfold Fits
  split
  · omega
  · rfl

theorem harmless_readFATEntry (geometry : Geometry fsbi) (cluster : Nat) {post : Nat → Prop}
    (all : ∀ entry, post entry) : Harmless fsbi (DISK1FAT32ReadFATEntry fsbi cluster) post := by
  simp only [DISK1FAT32ReadFATEntry, harmless_bind, harmless_readSectors, harmless_pure]
  exact ⟨geometry.table, fun _ => all _⟩

theorem harmless_walkChain (geometry : Geometry fsbi) (n cluster : Nat) {post : Nat → Prop}
    (all : ∀ last, post last) : Harmless fsbi (walkChain fsbi n cluster) post := by
  induction n generalizing cluster with
  | zero => exact all cluster
  | succ n ih =>
    rw [walkChain, harmless_bind]
    exact harmless_readFATEntry geometry cluster fun next => ih next

theorem harmless_findAvailable (geometry : Geometry fsbi) (left i : Nat) {post : Nat → Prop}
    (all : ∀ free, post free) : Harmless fsbi (findAvailable fsbi left i) post := by
  induction left generalizing i with
  | zero => exact all 0
  | succ left ih =>
    simp only [findAvailable, harmless_bind, harmless_readSectors]
    refine ⟨geometry.table, fun reply => ?_⟩
    split
    · exact all _
    · exact ih _

theorem harmless_writeFATEntry (geometry : Geometry fsbi) (cluster value : Nat)
    {post : Unit → Prop} (done : post ()) :
    Harmless fsbi (DISK1FAT32WriteFATEntry fsbi cluster value) post := by
  have copies : ∀ left i buf e, Harmless fsbi (writeFATCopies fsbi e buf left i) post := by
    intro left
    induction left with
    | zero => exact fun _ _ _ => done
    | succ left ih =>
      intro i buf e
      simp only [writeFATCopies, harmless_bind, harmless_writeSectors]
      exact ⟨geometry.table, fun _ => ih _ _ _⟩
  simp only [DISK1FAT32WriteFATEntry, harmless_bind, harmless_readSectors]
  exact ⟨geometry.table, fun _ => copies _ _ _ _⟩

theorem harmless_writeInode (geometry : Geometry fsbi) (inode : IndexNode) {post : Unit → Prop}
    (done : post ()) : Harmless fsbi (fat32WriteInode fsbi inode) post := by
  unfold fat32WriteInode
  split
  · exact done
  · simp only [harmless_bind, harmless_alloc, harmless_readSectors, harmless_writeSectors,
      harmless_pure]
    exact ⟨geometry.block, fun _ => ⟨geometry.cluster, fun _ => ⟨geometry.cluster, fun _ => done⟩⟩⟩

theorem harmless_copyOut (buffer : Memory) {offset index : Int} (buf : Nat) (start : 0 ≤ offset)
    (forward : 0 ≤ index) (fits : offset + index ≤ fsbi.bytesPerCluster) (small : index < 2 ^ 31)
    {post : Unit → Prop} (done : post ()) :
    Harmless fsbi (copyOut fsbi buffer offset buf index) post := by
  obtain ⟨n, rfl⟩ : ∃ n : Nat, index = n := ⟨index.toNat, by omega⟩
  have below := @pieceSize_le buf n (by omega)
  have inside : Inside fsbi offset (pieceSize buf n) := ⟨start, by omega⟩
  unfold copyOut
  by_cases nothing : pieceSize buf n = 0
  · simp only [if_pos nothing, harmless_pure]
    exact done
  · simp only [if_neg nothing, harmless_bind, harmless_store, if_pos inside, harmless_pure]
    exact done

theorem harmless_copyIn (buffer : Memory) {offset index : Int} (buf : Nat) (start : 0 ≤ offset)
    (forward : 0 ≤ index) (fits : offset + index ≤ fsbi.bytesPerCluster) (small : index < 2 ^ 31)
    {post : Memory → Prop} (done : ∀ block, post block) :
    Harmless fsbi (copyIn fsbi buffer offset buf index) post := by
  obtain ⟨n, rfl⟩ : ∃ n : Nat, index = n := ⟨index.toNat, by omega⟩
  have below := @pieceSize_le buf n (by omega)
  have inside : Inside fsbi offset (pieceSize buf n) := ⟨start, by omega⟩
  unfold copyIn
  by_cases nothing : pieceSize buf n = 0
  · simp only [if_pos nothing, harmless_pure]
    exact done _
  · simp only [if_neg nothing, harmless_bind, harmless_load, if_pos inside, harmless_pure]
    exact fun _ => done _

theorem harmless_readPieces (geometry : Geometry fsbi) {fuel cluster buf room : Nat}
    {index offset position : Int} (h : Room fsbi offset room) (forward : 0 ≤ index)
    (small : index < 2 ^ 31) (enough : index.toNat < fuel) :
    Harmless fsbi (readPieces fsbi fuel cluster index offset buf position) fun _ => True := by
  have mounted := geometry.mounted
  have start := h.start
  have fits := h.fits
  have some_room := h.some_room
  induction fuel generalizing cluster index offset buf position room with
  | zero => omega
  | succ fuel ih =>
    simp only [readPieces, harmless_bind, harmless_readSectors]
    refine ⟨geometry.cluster, fun reply => ?_⟩
    cases reply with
    | none => trivial
    | some sectors =>
      simp only [harmless_bind]
      by_cases last : index ≤ room
      · rw [pieceLength_last h last]
        apply harmless_copyOut _ _ start forward (by omega) small
        rw [if_pos (Int.sub_self index)]
        trivial
      · have unfinished : ¬ index - room = 0 := by omega
        rw [pieceLength_more mounted h last]
        apply harmless_copyOut _ _ start (by omega) (by omega) (by omega)
        rw [if_neg unfinished, harmless_bind]
        apply harmless_readFATEntry geometry
        intro next
        split
        · trivial
        · exact ih (room_whole mounted) (by omega) (by omega) (by omega) (by omega) (by omega)
            mounted.some_bytes

theorem harmless_read (geometry : Geometry fsbi) {inode : IndexNode} {buf count : Nat}
    {position : Int} (start : 0 ≤ position)
    (forward : 0 ≤ toInt32 (readCount inode position count)) :
    Harmless fsbi (FAT32Read fsbi inode buf count position) fun _ => True := by
  have mounted := geometry.mounted
  have not_zero : ¬ fsbi.bytesPerCluster = 0 := Nat.ne_of_gt mounted.some_bytes
  have loop := fun cluster => @harmless_readPieces fsbi geometry
    ((toInt32 (readCount inode position count)).toNat + 1) cluster buf (roomAt fsbi position)
    (toInt32 (readCount inode position count)) (position.tmod fsbi.bytesPerCluster) position
    (room_at mounted start) forward (toInt32_bounds _).2 (Nat.lt_succ_self _)
  unfold FAT32Read
  by_cases empty : inode.firstCluster = 0
  · simp only [not_zero, empty, ↓reduceIte, harmless_bind, harmless_alloc, harmless_pure,
      implies_true, and_true]
    exact geometry.block
  · simp only [not_zero, empty, ↓reduceIte, harmless_bind, harmless_alloc, harmless_pure]
    exact ⟨geometry.block, fun _ => harmless_walkChain geometry _ _ fun cluster => loop cluster⟩

theorem harmless_writePieces (geometry : Geometry fsbi) {fuel room : Nat} {s : Writing}
    (h : Room fsbi s.offset room) (forward : 0 ≤ s.index) (small : s.index < 2 ^ 31)
    (enough : s.index.toNat < fuel) :
    Harmless fsbi (writePieces fsbi fuel s) fun _ => True := by
  have mounted := geometry.mounted
  induction fuel generalizing s room with
  | zero => omega
  | succ fuel ih =>
    have start := h.start
    have fits := h.fits
    have some_room := h.some_room
    have body : ∀ m : Writing, m.offset = s.offset → m.index = s.index →
        Harmless fsbi (writePiece fsbi (writePieces fsbi fuel) m) fun _ => True := by
      intro m offset index
      simp only [writePiece, harmless_bind, harmless_writeSectors, offset, index]
      by_cases last : s.index ≤ room
      · rw [pieceLength_last h last]
        apply harmless_copyIn _ _ start forward (by omega) small
        intro buffer
        refine ⟨geometry.cluster, fun written => ?_⟩
        split
        · trivial
        · rw [if_pos (by simp only [Writing.past, index, Int.sub_self])]
          trivial
      · rw [pieceLength_more mounted h last]
        apply harmless_copyIn _ _ start (by omega) (by omega) (by omega)
        intro buffer
        refine ⟨geometry.cluster, fun written => ?_⟩
        split
        · trivial
        · have unfinished : ¬ (m.past room buffer).index = 0 := by
            simp only [Writing.past, index]
            omega
          have next : ∀ m' : Writing, m'.offset = 0 → m'.index = s.index - room →
              Harmless fsbi (writePieces fsbi fuel m') fun _ => True := by
            intro m' offset index
            exact ih (offset ▸ room_whole mounted) (by omega) (by omega) (by omega)
          have moved : (m.past room buffer).index = s.index - room := by
            simp only [Writing.past, index]
          rw [if_neg unfinished, harmless_bind]
          apply harmless_readFATEntry geometry
          intro entry
          split
          · simp only [extendChain, FAT32FindAvailableCluster, harmless_bind]
            apply harmless_findAvailable geometry
            intro free
            split
            · trivial
            · simp only [harmless_bind]
              apply harmless_writeFATEntry geometry
              apply harmless_writeFATEntry geometry
              exact next _ rfl moved
          · exact next _ rfl moved
    simp only [writePieces, loadCluster]
    split
    · simp only [harmless_bind, harmless_pure]
      exact body s rfl rfl
    · simp only [harmless_bind, harmless_readSectors, harmless_pure]
      refine ⟨geometry.cluster, fun reply => ?_⟩
      cases reply with
      | none => trivial
      | some sectors => exact body _ rfl rfl

theorem harmless_writeAt (geometry : Geometry fsbi) (inode : IndexNode) (cluster : Nat)
    (flags : Bool) (buffer : Memory) (buf count : Nat) {position : Int} (start : 0 ≤ position)
    (forward : 0 ≤ toInt32 count) :
    Harmless fsbi (writeAt fsbi inode cluster flags buffer buf count position) fun _ => True := by
  have small := (toInt32_bounds count).2
  simp only [writeAt, harmless_bind]
  generalize toInt32 count = index at forward small ⊢
  have loop := @harmless_writePieces fsbi geometry (index.toNat + 1) (roomAt fsbi position)
    ⟨cluster, 0, flags, index, position.tmod fsbi.bytesPerCluster, buf, buffer, position⟩
    (room_at geometry.mounted start) forward small (Nat.lt_succ_self _)
  apply harmless_mono loop
  intro leave _
  cases leave with
  | full reached => trivial
  | done last =>
    dsimp only
    split
    · rw [harmless_bind]
      apply harmless_writeInode geometry
      trivial
    · trivial

theorem harmless_write (geometry : Geometry fsbi) {inode : IndexNode} {buf count : Nat}
    {position : Int} (start : 0 ≤ position) (forward : 0 ≤ toInt32 count) :
    Harmless fsbi (FAT32Write fsbi inode buf count position) fun _ => True := by
  have not_zero : ¬ fsbi.bytesPerCluster = 0 := Nat.ne_of_gt geometry.mounted.some_bytes
  unfold FAT32Write
  by_cases empty : inode.firstCluster = 0
  · simp only [not_zero, empty, ↓reduceIte, harmless_bind, harmless_alloc]
    refine ⟨geometry.block, fun buffer => ?_⟩
    apply harmless_findAvailable geometry
    intro cluster
    split
    · trivial
    · simp only [harmless_bind]
      apply harmless_writeInode geometry
      apply harmless_writeFATEntry geometry
      exact harmless_writeAt geometry _ _ _ _ _ _ start forward
  · simp only [not_zero, empty, ↓reduceIte, harmless_bind, harmless_alloc]
    refine ⟨geometry.block, fun buffer => ?_⟩
    apply harmless_walkChain geometry
    intro cluster
    split
    · trivial
    · exact harmless_writeAt geometry _ _ _ _ _ _ start forward

theorem entriesFrom_inside (entries : fsbi.bytesPerCluster % 32 = 0) {i : Int} {k : Nat}
    (start : 0 ≤ i) (aligned : i % 32 = 0) (less : k < entriesFrom fsbi i) :
    EntryInside fsbi (i + 32 * (k : Nat)) := by
  unfold entriesFrom at less
  constructor
  · omega
  · omega

theorem searchInside_eq {taken : Int → Bool} {first : Nat → Int → Option Int}
    (nothing : ∀ i, first 0 i = none)
    (step : ∀ left i, first (left + 1) i = if taken i then some i else first left (i + 32))
    {n : Nat} {i : Int} (inside : ∀ k < n, EntryInside fsbi (i + 32 * (k : Nat))) :
    searchInside fsbi taken n i = some (first n i) := by
  induction n generalizing i with
  | zero => rw [nothing, searchInside]
  | succ n ih =>
    have here := inside 0 (Nat.succ_pos n)
    have rest : ∀ k < n, EntryInside fsbi (i + 32 + 32 * (k : Nat)) := by
      intro k less
      have later := inside (k + 1) (by omega)
      have place : i + 32 * ((k + 1 : Nat) : Int) = i + 32 + 32 * (k : Nat) := by omega
      rwa [place] at later
    have start : i + 32 * ((0 : Nat) : Int) = i := by omega
    rw [start] at here
    rw [searchInside, if_pos here, step]
    split
    · rfl
    · exact ih rest

theorem searchInside_found {taken : Int → Bool} {n : Nat} {i p : Int} (aligned : i % 32 = 0)
    (found : searchInside fsbi taken n i = some (some p)) : EntryInside fsbi p ∧ p % 32 = 0 := by
  induction n generalizing i with
  | zero => cases found
  | succ n ih =>
    rw [searchInside] at found
    split at found
    · rename_i inside
      split at found
      · cases found
        exact ⟨inside, aligned⟩
      · exact ih (by omega) found
    · cases found

theorem searchInside_outside {taken : Int → Bool} (nothing : ∀ i, taken i = false) {n k : Nat}
    {i : Int} (less : k < n) (outside : ¬ EntryInside fsbi (i + 32 * (k : Nat))) :
    searchInside fsbi taken n i = none := by
  induction n generalizing i k with
  | zero => omega
  | succ n ih =>
    rw [searchInside]
    split
    · rename_i inside
      rw [nothing, if_neg Bool.false_ne_true]
      cases k with
      | zero =>
        have start : i + 32 * ((0 : Nat) : Int) = i := by omega
        rw [start] at outside
        exact absurd inside outside
      | succ k =>
        have place : i + 32 * ((k + 1 : Nat) : Int) = i + 32 + 32 * (k : Nat) := by omega
        rw [place] at outside
        exact ih (by omega) outside
    · rfl

theorem search_named (geometry : Geometry fsbi) (v : View) (d : Component) :
    searchInside fsbi (fun i => live v i && compareName v i d) (entriesFrom fsbi 0) 0 =
      some (firstNamed v d (entriesFrom fsbi 0) 0) := by
  apply searchInside_eq
  · exact fun _ => rfl
  · intro left i
    simp only [firstNamed, Bool.and_eq_true]
  · intro k less
    exact entriesFrom_inside geometry.entries (Int.le_refl 0) rfl less

theorem search_live (geometry : Geometry fsbi) (v : View) {i : Int} (start : 0 ≤ i)
    (aligned : i % 32 = 0) :
    searchInside fsbi (live v) (entriesFrom fsbi i) i =
      some (firstLive v (entriesFrom fsbi i) i) := by
  apply searchInside_eq
  · exact fun _ => rfl
  · exact fun _ _ => rfl
  · intro k less
    exact entriesFrom_inside geometry.entries start aligned less

theorem harmless_lookupChecked {sb : SuperBlock} (geometry : Geometry sb.fsbi)
    (divisor : sb.bytesPerSector ≠ 0) (before block : Memory) (d : Component)
    (rounds cluster : Nat) :
    Harmless sb.fsbi (lookupChecked sb before block d rounds cluster) fun found =>
      ∀ f, found = some f → EntryInside sb.fsbi (32 * f.inode.dentryPosition) := by
  have nothing : ∀ f : Found, (none : Option Found) = some f →
      EntryInside sb.fsbi (32 * f.inode.dentryPosition) := by
    intro f none_
    cases none_
  induction rounds generalizing block cluster with
  | zero => exact nothing
  | succ rounds ih =>
    simp only [lookupChecked, harmless_bind, harmless_readSectors]
    refine ⟨geometry.cluster, fun reply => ?_⟩
    cases reply with
    | none => exact nothing
    | some sectors =>
      have searched := search_named geometry
        (around before (copy sectors 0 block 0 (512 * sb.fsbi.sectorPerCluster))) d
      dsimp only
      rw [searched]
      cases named : firstNamed (around before (copy sectors 0 block 0
          (512 * sb.fsbi.sectorPerCluster))) d (entriesFrom sb.fsbi 0) 0 with
      | none =>
        simp only [harmless_bind]
        apply harmless_readFATEntry geometry
        intro next
        split
        · exact ih _ _
        · exact nothing
      | some p =>
        rw [named] at searched
        obtain ⟨inside, aligned⟩ := searchInside_found (by decide) searched
        simp only [if_neg divisor, harmless_pure, Option.some.injEq, forall_eq', foundAt]
        have place : 32 * ((p / 32).toNat : Int) = p := by
          have start := inside.1
          omega
        rw [place]
        exact inside

theorem harmless_seekCluster (geometry : Geometry fsbi) (n cluster : Nat)
    {post : Option Nat → Prop} (all : ∀ found, post found) :
    Harmless fsbi (seekCluster fsbi n cluster) post := by
  induction n generalizing cluster with
  | zero => exact all _
  | succ n ih =>
    rw [seekCluster, harmless_bind]
    apply harmless_readFATEntry geometry
    intro next
    split
    · exact all _
    · exact ih _

theorem tmod_entry (geometry : Geometry fsbi) {position : Int} (forward : 0 ≤ position)
    (aligned : position % 32 = 0) :
    0 ≤ position.tmod fsbi.bytesPerCluster ∧ position.tmod fsbi.bytesPerCluster % 32 = 0 := by
  have entries := geometry.entries
  have divides : (32 : Int) ∣ fsbi.bytesPerCluster := by omega
  have part := Int.emod_eq_zero_of_dvd
    (Int.dvd_trans divides (Int.dvd_mul_right _ (position.tdiv fsbi.bytesPerCluster)))
  have whole := Int.mul_tdiv_add_tmod position fsbi.bytesPerCluster
  exact ⟨Int.tmod_nonneg _ forward, by omega⟩

theorem harmless_readdirChecked (geometry : Geometry fsbi) (before block : Memory)
    (rounds cluster : Nat) {position : Int} (forward : 0 ≤ position)
    (aligned : position % 32 = 0) :
    Harmless fsbi (readdirChecked fsbi before block rounds cluster position) fun _ => True := by
  induction rounds generalizing block cluster position with
  | zero => trivial
  | succ rounds ih =>
    obtain ⟨start, offset⟩ := tmod_entry geometry forward aligned
    simp only [readdirChecked, harmless_bind, harmless_readSectors]
    refine ⟨geometry.cluster, fun reply => ?_⟩
    cases reply with
    | none => trivial
    | some sectors =>
      dsimp only
      rw [search_live geometry _ start offset]
      split
      · rename_i failed
        cases failed
      · trivial
      · rw [harmless_bind]
        apply harmless_readFATEntry geometry
        intro next
        split
        · exact ih _ _ (by omega) (by omega)
        · trivial

end geometry

theorem geometry_of_fit {startLBA sectorsLimit : Nat} {buf : Memory} (fit : Fit buf) :
    Geometry (superBlock startLBA sectorsLimit buf).fsbi where
  mounted := by
    have clusters := fit.clusters
    have sectors := fit.sectors
    have block := fit.block
    have limit : Kmalloc.cacheSize 15 < 2 ^ 31 := by decide
    exact ⟨Nat.mul_pos (by omega) (by omega), Nat.lt_of_le_of_lt block limit⟩
  transfers := by
    have sectors := fit.sectors
    dsimp only [superBlock]
    rw [Nat.mul_comm]
    exact Nat.mul_le_mul_left _ sectors
  entries := fit.entries
  block := fit.block

theorem usable_of_fit {startLBA sectorsLimit : Nat} {buf : Memory} (fit : Fit buf) :
    Usable (superBlock startLBA sectorsLimit buf) := by
  have geometry := @geometry_of_fit startLBA sectorsLimit buf fit
  have sectors := fit.sectors
  have not_zero : ¬ (superBlock startLBA sectorsLimit buf).fsbi.bytesPerCluster = 0 :=
    Nat.ne_of_gt geometry.mounted.some_bytes
  constructor
  · intro inode buf count position forward
    exact harmless_read geometry (Int.natCast_nonneg _) forward
  · intro inode buf count position forward
    exact harmless_write geometry (Int.natCast_nonneg _) forward
  · intro rounds firstCluster d
    simp only [FAT32LookupChecked, harmless_bind, harmless_alloc]
    refine ⟨geometry.block, fun before => ⟨geometry.block, fun block => ?_⟩⟩
    apply harmless_lookupChecked geometry
    dsimp only [superBlock]
    omega
  · intro rounds firstCluster position aligned
    simp only [FAT32ReaddirChecked, if_neg not_zero, harmless_bind, harmless_alloc]
    refine ⟨geometry.block, fun before => ⟨geometry.block, fun block => ?_⟩⟩
    generalize walkLength (superBlock startLBA sectorsLimit buf).fsbi position = links
    apply harmless_seekCluster geometry
    intro found
    cases found with
    | none => trivial
    | some cluster =>
      exact harmless_readdirChecked geometry before block rounds cluster (Int.natCast_nonneg _)
        (by omega)

theorem zeros_unused (n : Nat) (i : Int) : live (around zeros (copy zeros 0 zeros 0 n)) i = false := by
  have zero : ∀ j, around zeros (copy zeros 0 zeros 0 n) j = 0 := by
    intro j
    have copied : copy zeros 0 zeros 0 n = zeros := by
      funext x
      simp only [copy, zeros, ite_self]
    rw [copied, around, zeros, zeros, ite_self]
  simp [live, dirName, byteAt, zero]

theorem fit_of_usable {startLBA sectorsLimit : Nat} {buf : Memory}
    (usable : Usable (superBlock startLBA sectorsLimit buf)) : Fit buf := by
  have looked := usable.lookup 1 2 readmeTxtx
  simp only [FAT32LookupChecked, lookupChecked, harmless_bind, harmless_alloc,
    harmless_readSectors] at looked
  obtain ⟨block, looked⟩ := looked
  obtain ⟨transfers, looked⟩ := (looked zeros).2 zeros
  rw [Fits, if_pos rfl] at transfers
  have clusters : bpbSecPerClus buf ≠ 0 := by
    intro none_
    have nothing : (superBlock startLBA sectorsLimit buf).fsbi.bytesPerCluster = 0 := by
      dsimp only [superBlock]
      rw [none_, Nat.zero_mul]
    have faulted := usable.read ⟨0, 2, 0, 0⟩ 0 0 0 (by decide +kernel)
    unfold FAT32Read at faulted
    rw [if_pos nothing] at faulted
    exact faulted
  refine ⟨clusters, ?_, ?_, block⟩
  · dsimp only [superBlock] at transfers
    rw [Nat.mul_comm] at transfers
    exact Nat.le_of_mul_le_mul_left transfers (by omega)
  · by_contra odd
    have faulted := looked (some zeros)
    have bytes : (superBlock startLBA sectorsLimit buf).fsbi.bytesPerCluster =
        bpbSecPerClus buf * bpbBytesPerSec buf := rfl
    have outside : searchInside (superBlock startLBA sectorsLimit buf).fsbi (fun i =>
        live (around zeros (copy zeros 0 zeros 0 (512 *
          (superBlock startLBA sectorsLimit buf).fsbi.sectorPerCluster))) i &&
        compareName (around zeros (copy zeros 0 zeros 0 (512 *
          (superBlock startLBA sectorsLimit buf).fsbi.sectorPerCluster))) i readmeTxtx)
        (entriesFrom (superBlock startLBA sectorsLimit buf).fsbi 0) 0 = none := by
      apply @searchInside_outside _ _ _ _ (bpbSecPerClus buf * bpbBytesPerSec buf / 32)
      · unfold entriesFrom
        omega
      · intro inside
        have past := inside.2
        omega
      · intro i
        rw [zeros_unused, Bool.false_and]
    dsimp only at faulted
    rw [outside] at faulted
    exact faulted

theorem run_readSuperblock (startLBA sectorsLimit : Nat) {buf : Memory} (w : World)
    (divisor : bpbBytesPerSec buf ≠ 0) :
    run (fat32ReadSuperblock startLBA sectorsLimit buf) w =
      some (superBlock startLBA sectorsLimit buf, w) := by
  unfold fat32ReadSuperblock
  rw [if_neg divisor]
  rfl

/-- Of the boot sectors that are mounted, the calls are harmless on exactly those that are fit. -/
theorem mounted_usable_iff {startLBA sectorsLimit : Nat} {buf : Memory} {w w' : World}
    {sb : SuperBlock}
    (mounted : run (fat32ReadSuperblock startLBA sectorsLimit buf) w = some (sb, w')) :
    Usable sb ↔ Fit buf := by
  by_cases divisor : bpbBytesPerSec buf = 0
  · unfold fat32ReadSuperblock at mounted
    rw [if_pos divisor] at mounted
    cases mounted
  · rw [run_readSuperblock startLBA sectorsLimit w divisor] at mounted
    cases mounted
    exact ⟨fit_of_usable, usable_of_fit⟩

def bootSector (clusters : UInt8) : Memory := fun i =>
  [0, 2, clusters, 32, 0, 2].getD (i - 11) 0

theorem mounted_usable_4k : Usable (superBlock 63 4194304 (bootSector 8)) :=
  (mounted_usable_iff (run_readSuperblock 63 4194304 ⟨zeros, zeros, [], [], []⟩
    (by decide +kernel))).mpr ⟨by decide +kernel, by decide +kernel, by decide +kernel,
      by decide +kernel⟩

theorem mounted_without_clusters :
    ¬ ∀ (startLBA sectorsLimit : Nat) (buf : Memory) (w w' : World) (sb : SuperBlock),
      run (fat32ReadSuperblock startLBA sectorsLimit buf) w = some (sb, w') → Usable sb := by
  intro claim
  have usable := claim 63 4194304 (bootSector 0) ⟨zeros, zeros, [], [], []⟩ _ _
    (run_readSuperblock 63 4194304 _ (by decide +kernel))
  exact (fit_of_usable usable).clusters (by decide +kernel)

theorem lookupFrom_checked {sb : SuperBlock} (geometry : Geometry sb.fsbi)
    (divisor : sb.bytesPerSector ≠ 0) {w w' : World} {before block : Memory} {fuel cluster : Nat}
    {d : Component} {r : Option Found}
    (ran : run (lookupFrom sb.fsbi before block d fuel cluster) w = some (r, w')) :
    run (lookupChecked sb before block d fuel cluster) w = some (r, w') := by
  induction fuel generalizing block cluster w with
  | zero => cases ran
  | succ fuel ih =>
    have searched := search_named geometry (around before (copy
      (w.sectors (directorySector sb.fsbi cluster)) 0 block 0 (512 * sb.fsbi.sectorPerCluster))) d
    simp only [lookupFrom, lookupChecked, run_bind, readSectors, run, Option.bind_some,
      searched] at ran ⊢
    cases named : firstNamed (around before (copy (w.sectors (directorySector sb.fsbi cluster)) 0
        block 0 (512 * sb.fsbi.sectorPerCluster))) d (entriesFrom sb.fsbi 0) 0 with
    | some p =>
      rw [named] at ran
      dsimp only
      rw [if_neg divisor]
      exact ran
    | none =>
      rw [named] at ran
      simp only [run_bind] at ran ⊢
      obtain ⟨entry, read, ran⟩ := Option.bind_eq_some_iff.mp ran
      rw [read, Option.bind_some]
      split at ran
      · rename_i more
        rw [if_pos more]
        exact ih ran
      · rename_i last
        rw [if_neg last]
        exact ran

theorem readdirFrom_checked {fsbi : SbInfo} (geometry : Geometry fsbi) {w w' : World}
    {before block : Memory} {fuel cluster : Nat} {position : Int} {r : Option (View × Int) × Int}
    (forward : 0 ≤ position) (aligned : position % 32 = 0)
    (ran : run (readdirFrom fsbi before block fuel cluster position) w = some (r, w')) :
    run (readdirChecked fsbi before block fuel cluster position) w = some (r, w') := by
  induction fuel generalizing block cluster position w with
  | zero => cases ran
  | succ fuel ih =>
    obtain ⟨start, offset⟩ := tmod_entry geometry forward aligned
    have searched := search_live geometry (around before (copy (w.sectors
      (directorySector fsbi cluster)) 0 block 0 (512 * fsbi.sectorPerCluster))) start offset
    simp only [readdirFrom, readdirChecked, run_bind, readSectors, run, Option.bind_some,
      searched] at ran ⊢
    cases found : firstLive (around before (copy (w.sectors (directorySector fsbi cluster)) 0 block
        0 (512 * fsbi.sectorPerCluster)))
        (entriesFrom fsbi (position.tmod fsbi.bytesPerCluster))
        (position.tmod fsbi.bytesPerCluster) with
    | some p =>
      rw [found] at ran
      exact ran
    | none =>
      rw [found] at ran
      simp only [run_bind] at ran ⊢
      obtain ⟨entry, read, ran⟩ := Option.bind_eq_some_iff.mp ran
      rw [read, Option.bind_some]
      split at ran
      · rename_i more
        rw [if_pos more]
        exact ih (by omega) (by omega) ran
      · rename_i last
        rw [if_neg last]
        exact ran

/-- On a usable volume the checks of FAT32_lookup change nothing. -/
theorem lookup_checked {sb : SuperBlock} (geometry : Geometry sb.fsbi)
    (divisor : sb.bytesPerSector ≠ 0) {w w' : World} {fuel firstCluster : Nat} {d : Component}
    {r : Option Found}
    (ran : run (FAT32Lookup fuel sb.fsbi firstCluster d) w = some (r, w')) :
    run (FAT32LookupChecked fuel sb firstCluster d) w = some (r, w') := by
  simp only [FAT32Lookup, FAT32LookupChecked, run_bind, alloc, run, Option.bind_some] at ran ⊢
  exact lookupFrom_checked geometry divisor ran

/-- From an entry on those of FAT32_readdir do not either: it comes to the same entry. -/
theorem readdir_checked {fsbi : SbInfo} (geometry : Geometry fsbi) {w w' : World}
    {fuel firstCluster : Nat} {position : Int} {r : Option (List UInt8) × Int}
    (forward : 0 ≤ position) (aligned : position % 32 = 0)
    (ran : run (FAT32Readdir fuel fsbi firstCluster position) w = some (r, w')) :
    ∃ e, run (FAT32ReaddirChecked fuel fsbi firstCluster position) w = some ((e, r.2), w') := by
  have not_zero : ¬ fsbi.bytesPerCluster = 0 := Nat.ne_of_gt geometry.mounted.some_bytes
  simp only [FAT32Readdir, FAT32ReaddirChecked, if_neg not_zero, run_bind, alloc, run,
    Option.bind_some] at ran ⊢
  obtain ⟨⟨found, w₁⟩, sought, ran⟩ := Option.bind_eq_some_iff.mp ran
  rw [sought, Option.bind_some]
  cases found with
  | none =>
    cases ran
    exact ⟨none, rfl⟩
  | some cluster =>
    simp only [run_bind] at ran
    obtain ⟨⟨⟨entry, reached⟩, w₂⟩, loop, ran⟩ := Option.bind_eq_some_iff.mp ran
    have checked := readdirFrom_checked geometry forward aligned loop
    cases entry with
    | none =>
      cases ran
      exact ⟨none, checked⟩
    | some entry =>
      obtain ⟨v, p⟩ := entry
      dsimp only at ran
      split at ran
      · cases ran
      · cases ran
        exact ⟨some (v, p), checked⟩

end Mount

import Q2os.Fat32File
import Q2os.Fat32Directory
import Q2os.Keyboard

/- sys_read, sys_write and sys_getdents on a buffer address of the caller, and the addresses
   the kernel uses through it. -/
namespace UserPointers
open ByteMemory BlockProgram UserMemory Fat32 InputBuffer

def EINVAL : Int := 28

/- An open descriptor: a file or directory of the volume, or the keyboard, whose buffer is
   as keyboard_read finds it after the wait. -/
inductive Descriptor where
  | file (fsbi : SbInfo) (inode : IndexNode) (position : Int)
  | keyboard (kb : KeyboardInputbuffer)

def copyToUserProg (data : Memory) (to_ size : Nat) : Prog Unit :=
  if verifyArea to_ size then store to_ size data else return ()

/- The copies of keyboard_read in order: what they take and how much. -/
def keyboardPieces (kb : KeyboardInputbuffer) (count : Nat) : List (Nat × Nat) :=
  let counter := if kb.count ≥ count then count else kb.count
  let room : Int := (kbBufSize : Int) - kb.pTail
  if (counter : Int) ≤ room then [(kb.pTail, counter)]
  else [(kb.pTail, (room % 2 ^ 64).toNat), (kb.pHead, ((counter - room) % 2 ^ 64).toNat)]

def copyPieces (kb : KeyboardInputbuffer) (buf : Nat) : List (Nat × Nat) → Prog Unit
  | [] => return ()
  | (from_, size) :: rest => do
    copyToUserProg (fun i => kb.buf (from_ + i)) buf size
    copyPieces kb buf rest

def keyboardRead (kb : KeyboardInputbuffer) (buf count : Nat) : Prog Int := do
  copyPieces kb buf (keyboardPieces kb count)
  return if kb.count ≥ count then count else kb.count

def sizeofDirent : Nat := 24

def fillDentry (buf : Nat) (name : List UInt8) : Prog Int :=
  if buf < taskSize ∧ ¬ verifyArea buf (sizeofDirent + name.length) then return -EFAULT
  else do
    if name.length ≠ 0 then
      store ((buf + sizeofDirent) % 2 ^ 64) name.length fun i => name.getD i 0
    store ((buf + 16) % 2 ^ 64) 8 (setLittle zeros 0 name.length 8)
    store ((buf + 8) % 2 ^ 64) 8 zeros
    store buf 8 zeros
    return sizeofDirent + name.length

def sysRead (d : Descriptor) (buf : Nat) (count : Int) : Prog Int :=
  if count < 0 then return -EINVAL
  else match d with
    | .file fsbi inode position => do
      let (retval, _) ← FAT32Read fsbi inode buf count.toNat position
      return retval
    | .keyboard kb => keyboardRead kb buf count.toNat

def sysWrite (d : Descriptor) (buf : Nat) (count : Int) : Prog Int :=
  if count < 0 then return -EINVAL
  else match d with
    | .file fsbi inode position => do
      let (retval, _) ← FAT32Write fsbi inode buf count.toNat position
      return retval
    | .keyboard _ => return 0

def sysGetdents (fuel : Nat) (d : Descriptor) (dirent : Nat) (count : Int) : Prog Int :=
  if count < 0 then return -EINVAL
  else match d with
    | .file fsbi inode position => do
      match ← FAT32Readdir fuel fsbi inode.firstCluster position with
      | (none, _) => return 0
      | (some name, _) => fillDentry dirent name
    | .keyboard _ => return 0

/- All size bytes from addr on lie at or below 0x00007fffffffffff. -/
def Below (addr size : Nat) : Prop := addr + size ≤ taskSize + 1

/- The call uses no other address of the caller, whatever the disk holds. -/
def Confined {α : Type} (call : Prog α) : Prop := Always Below Anything call fun _ => True

/- Where the last piece of n bytes starts when the first one has room bytes and the others
   have bpc. -/
def lastStart (bpc room n : Nat) : Nat := if n ≤ room then 0 else room + (n - room - 1) / bpc * bpc

/- The pieces of index bytes from buf on. A piece that starts below TASK_SIZE is checked, so
   the last one must start there, or be the one byte at TASK_SIZE. A negative index is one
   piece of almost 2^64 bytes, which the check stops only where its sum wraps below zero. -/
def PiecesBelow (bpc room : Nat) (index : Int) (buf : Nat) : Prop :=
  index = 0 ∨
  (0 < index ∧ (buf + lastStart bpc room index.toNat < taskSize ∨
    (buf + lastStart bpc room index.toNat = taskSize ∧
      index.toNat = lastStart bpc room index.toNat + 1))) ∨
  (index < 0 ∧ ((buf : Int) < -index ∨ (buf = taskSize ∧ index = -7)))

def PieceBelow (buf : Nat) (length : Int) : Prop :=
  pieceSize buf length = 0 ∨ Below buf (pieceSize buf length)

theorem memcpySize_pos (n : Nat) (word : n < 2 ^ 64) : memcpySize n = n := by
  have quads : (n : Int).tdiv 8 = n / 8 := Int.tdiv_eq_ediv_of_nonneg (by omega)
  simp only [memcpySize, quads]
  omega

theorem tdiv_negative {num : Int} (negative : num < 0) : num.tdiv 8 = -(-num / 8) := by
  rw [← Int.tdiv_eq_ediv_of_nonneg (by omega), Int.neg_tdiv, Int.neg_neg]

theorem pieceSize_high {buf : Nat} {length : Int} (high : ¬ buf < taskSize) :
    pieceSize buf length = memcpySize length := by
  simp [pieceSize, high]

theorem pieceSize_checked {buf : Nat} {length : Int} (low : buf < taskSize)
    (inside : (buf + (length % 2 ^ 64).toNat) % 2 ^ 64 ≤ taskSize) :
    pieceSize buf length = (length % 2 ^ 64).toNat := by
  have checked : verifyArea buf (length % 2 ^ 64).toNat = true := by
    simpa only [verifyArea, decide_eq_true_eq] using inside
  unfold pieceSize
  rw [if_pos low]
  exact if_pos checked

theorem pieceSize_refused {buf : Nat} {length : Int} (low : buf < taskSize)
    (outside : ¬ (buf + (length % 2 ^ 64).toNat) % 2 ^ 64 ≤ taskSize) :
    pieceSize buf length = 0 := by
  have refused : ¬ verifyArea buf (length % 2 ^ 64).toNat = true := by
    simpa only [verifyArea, decide_eq_true_eq] using outside
  unfold pieceSize
  rw [if_pos low]
  exact if_neg refused

theorem piece_below_low {buf n : Nat} (low : buf < taskSize) (small : n < 2 ^ 31) :
    PieceBelow buf n := by
  by_cases inside : (buf + ((n : Int) % 2 ^ 64).toNat) % 2 ^ 64 ≤ taskSize
  · right
    rw [pieceSize_checked low inside]
    simp only [Below, taskSize] at low inside ⊢
    omega
  · exact Or.inl (pieceSize_refused low inside)

theorem piece_below_high {buf n : Nat} (high : ¬ buf < taskSize) (small : n < 2 ^ 31) :
    PieceBelow buf n ↔ n = 0 ∨ (buf = taskSize ∧ n = 1) := by
  unfold PieceBelow
  rw [pieceSize_high high, memcpySize_pos n (by omega)]
  simp only [Below]
  omega

theorem piece_below_negative {buf : Nat} {index : Int} (negative : index < 0)
    (small : -(2 ^ 31) ≤ index) :
    PieceBelow buf index ↔ (buf : Int) < -index ∨ (buf = taskSize ∧ index = -7) := by
  by_cases low : buf < taskSize
  · by_cases inside : (buf + (index % 2 ^ 64).toNat) % 2 ^ 64 ≤ taskSize
    · unfold PieceBelow
      rw [pieceSize_checked low inside]
      simp only [Below, taskSize] at low inside ⊢
      omega
    · have harmless : PieceBelow buf index := Or.inl (pieceSize_refused low inside)
      simp only [harmless, true_iff, taskSize] at low inside ⊢
      omega
  · unfold PieceBelow
    rw [pieceSize_high low]
    simp only [memcpySize, tdiv_negative negative, Below, taskSize] at low ⊢
    omega

theorem pieces_single {bpc room buf : Nat} {index : Int} (last : index ≤ room)
    (low : -(2 ^ 31) ≤ index) (high : index < 2 ^ 31) :
    PiecesBelow bpc room index buf ↔ PieceBelow buf index := by
  have start : lastStart bpc room index.toNat = 0 := if_pos (by omega)
  unfold PiecesBelow
  rw [start]
  by_cases negative : index < 0
  · rw [piece_below_negative negative low]
    omega
  · obtain ⟨n, rfl⟩ : ∃ n : Nat, index = n := ⟨index.toNat, by omega⟩
    by_cases under : buf < taskSize
    · have harmless := piece_below_low (n := n) under (by omega)
      simp only [harmless, iff_true]
      omega
    · rw [piece_below_high under (by omega)]
      omega

theorem lastStart_more {bpc room n : Nat} (more : room < n) (some_room : 0 < bpc) :
    lastStart bpc room n = room + lastStart bpc bpc (n - room) := by
  have first : ¬ n ≤ room := by omega
  simp only [lastStart, first, ↓reduceIte]
  by_cases last : n - room ≤ bpc
  · have none_between : (n - room - 1) / bpc = 0 := Nat.div_eq_of_lt (by omega)
    simp [last, none_between]
  · have one : (n - room - 1) / bpc = (n - room - bpc - 1) / bpc + 1 := by
      have split : n - room - 1 = n - room - bpc - 1 + bpc := by omega
      rw [split, Nat.add_div_right _ some_room]
    simp only [last, ↓reduceIte, one, Nat.add_mul, Nat.one_mul]
    omega

theorem pieces_more {bpc room buf : Nat} {index : Int} (more : (room : Int) < index)
    (some_room : 0 < room) (some_bytes : 0 < bpc) (high : index < 2 ^ 31)
    (word : buf < 2 ^ 64) :
    PiecesBelow bpc room index buf ↔
      PieceBelow buf room ∧ PiecesBelow bpc bpc (index - room) ((buf + room) % 2 ^ 64) := by
  obtain ⟨n, rfl⟩ : ∃ n : Nat, index = n := ⟨index.toNat, by omega⟩
  have start := @lastStart_more bpc room n (by omega) some_bytes
  have rest : ((n : Int) - room).toNat = n - room := by omega
  unfold PiecesBelow
  rw [rest, Int.toNat_natCast, start]
  by_cases under : buf < taskSize
  · have harmless := piece_below_low (n := room) under (by omega)
    have whole : (buf + room) % 2 ^ 64 = buf + room := by
      simp only [taskSize] at under
      omega
    rw [whole]
    simp only [harmless, true_and]
    omega
  · rw [piece_below_high under (by omega)]
    by_cases at_end : buf = taskSize ∧ room = 1
    · obtain ⟨at_top, one⟩ := at_end
      subst at_top one
      simp only [taskSize]
      omega
    · simp only [taskSize] at under at_end ⊢
      omega

/- A piece that leaves the block is one of nearly 2^64 bytes. -/
def Kept (fsbi : SbInfo) (offset : Int) (buf : Nat) (length : Int) : Prop :=
  pieceSize buf length = 0 ∨ Inside fsbi offset (pieceSize buf length)

theorem copyOut_always (fsbi : SbInfo) (buffer : Memory) (offset : Int) (buf : Nat)
    (length : Int) (post : Unit → Prop) :
    Always Below Anything (copyOut fsbi buffer offset buf length) post ↔
      PieceBelow buf length ∧ (Kept fsbi offset buf length → post ()) := by
  unfold copyOut PieceBelow Kept
  by_cases none_moves : pieceSize buf length = 0
  · simp [none_moves]
  · by_cases inside : Inside fsbi offset (pieceSize buf length)
    · simp [none_moves, inside]
    · simp [none_moves, inside]

theorem copyIn_always (fsbi : SbInfo) (buffer : Memory) (offset : Int) (buf : Nat)
    (length : Int) (post : Memory → Prop) (free : ∀ b b', post b ↔ post b') :
    Always Below Anything (copyIn fsbi buffer offset buf length) post ↔
      PieceBelow buf length ∧ (Kept fsbi offset buf length → post buffer) := by
  unfold copyIn PieceBelow Kept
  by_cases none_moves : pieceSize buf length = 0
  · simp [none_moves]
  · by_cases inside : Inside fsbi offset (pieceSize buf length)
    · simp [none_moves, inside, free _ buffer]
    · simp [none_moves, inside]

theorem pieceSize_le {buf n : Nat} (small : n < 2 ^ 31) : pieceSize buf n ≤ n := by
  by_cases low : buf < taskSize
  · by_cases inside : (buf + ((n : Int) % 2 ^ 64).toNat) % 2 ^ 64 ≤ taskSize
    · rw [pieceSize_checked low inside]
      omega
    · rw [pieceSize_refused low inside]
      omega
  · exact Nat.le_of_eq ((pieceSize_high low).trans (memcpySize_pos n (by omega)))

theorem kept_of_room {fsbi : SbInfo} {offset : Int} {buf n : Nat} (start : 0 ≤ offset)
    (fits : offset + n ≤ fsbi.bytesPerCluster) (small : n < 2 ^ 31) : Kept fsbi offset buf n := by
  have short := @pieceSize_le buf n small
  exact Or.inr ⟨start, by omega⟩

/- Replies of a table whose entries all read 2. -/
def twos : Memory := fun i => if i % 4 = 0 then 2 else 0

theorem entryAt_twos (i : Nat) : entryAt twos i = 2 := by
  have first : twos (4 * i) = 2 := by simp [twos]
  have second : twos (4 * i + 1) = 0 := if_neg (by omega)
  have third : twos (4 * i + 1 + 1) = 0 := if_neg (by omega)
  have fourth : twos (4 * i + 1 + 1 + 1) = 0 := if_neg (by omega)
  simp [entryAt, getLittle, first, second, third, fourth]

theorem readFATEntry_always (touch : Nat → Nat → Prop) (fsbi : SbInfo) (e : Nat)
    (post : Nat → Prop) :
    Always touch Anything (DISK1FAT32ReadFATEntry fsbi e) post ↔
      ∀ reply, post (entryAt (received reply) (e % 2 ^ 32 % 128) % 2 ^ 28) := Iff.rfl

theorem readFATEntry_two {touch : Nat → Nat → Prop} {fsbi : SbInfo} {e : Nat}
    {post : Nat → Prop} (h : Always touch Anything (DISK1FAT32ReadFATEntry fsbi e) post) : post 2 := by
  have reply := (readFATEntry_always touch fsbi e post).mp h (some twos)
  simpa [received, entryAt_twos] using reply

structure Mounted (fsbi : SbInfo) : Prop where
  some_bytes : 0 < fsbi.bytesPerCluster
  bounded : fsbi.bytesPerCluster < 2 ^ 31

structure Room (fsbi : SbInfo) (offset : Int) (room : Nat) : Prop where
  start : 0 ≤ offset
  some_room : 0 < room
  fits : offset + room = fsbi.bytesPerCluster

theorem room_whole {fsbi : SbInfo} (mounted : Mounted fsbi) :
    Room fsbi 0 fsbi.bytesPerCluster :=
  ⟨Int.le_refl 0, mounted.some_bytes, Int.zero_add _⟩

theorem pieceLength_last {fsbi : SbInfo} {offset index : Int} {room : Nat}
    (h : Room fsbi offset room) (last : index ≤ room) : pieceLength fsbi index offset = index := by
  have fits := h.fits
  exact if_pos (by omega)

theorem pieceLength_more {fsbi : SbInfo} (mounted : Mounted fsbi) {offset index : Int}
    {room : Nat} (h : Room fsbi offset room) (more : ¬ index ≤ room) :
    pieceLength fsbi index offset = room := by
  have bounded := mounted.bounded
  have fits := h.fits
  have start := h.start
  have longer : ¬ index ≤ fsbi.bytesPerCluster - offset := by omega
  simp only [pieceLength, longer, ↓reduceIte, toInt32, Int.bmod]
  omega

theorem kept_room {fsbi : SbInfo} (mounted : Mounted fsbi) {offset : Int} {room : Nat}
    (h : Room fsbi offset room) (buf : Nat) : Kept fsbi offset buf room := by
  have bounded := mounted.bounded
  have fits := h.fits
  have start := h.start
  exact kept_of_room h.start (by omega) (by omega)

theorem advance_eq (buf room : Nat) : advance buf room = (buf + room) % 2 ^ 64 := by
  simp only [advance]
  omega

/- The loop of FAT32_read is confined exactly if its pieces are. -/
theorem read_pieces_confined {fsbi : SbInfo} (mounted : Mounted fsbi)
    {fuel cluster buf room : Nat} {index offset position : Int} (h : Room fsbi offset room)
    (low : -(2 ^ 31) ≤ index) (high : index < 2 ^ 31) (enough : index.toNat < fuel)
    (word : buf < 2 ^ 64) :
    Confined (readPieces fsbi fuel cluster index offset buf position) ↔
      PiecesBelow fsbi.bytesPerCluster room index buf := by
  induction fuel generalizing cluster index offset buf position room with
  | zero => omega
  | succ fuel ih =>
    simp only [Confined, readPieces, always_bind, always_readSectors]
    by_cases last : index ≤ room
    · have whole := pieceLength_last h last
      rw [pieces_single last low high]
      constructor
      · intro every
        have one := every (some zeros)
        simp only [always_bind, whole, copyOut_always] at one
        exact one.1
      · intro harmless reply
        cases reply with
        | none => trivial
        | some sectors => simp [whole, copyOut_always, harmless]
    · have piece := pieceLength_more mounted h last
      have kept := kept_room mounted h buf
      have some_room := h.some_room
      have more : ¬ index - room = 0 := by omega
      have rest := fun c => @ih c ((buf + room) % 2 ^ 64) fsbi.bytesPerCluster (index - room) 0
        (position + room) (room_whole mounted) (by omega) (by omega) (by omega)
        (Nat.mod_lt _ (by decide))
      rw [pieces_more (by omega) some_room mounted.some_bytes high word]
      constructor
      · intro every
        have one := every (some zeros)
        simp only [always_bind, piece, copyOut_always, more, ↓reduceIte, advance_eq] at one
        exact ⟨one.1, (rest 2).mp (readFATEntry_two (one.2 kept))⟩
      · intro harmless reply
        cases reply with
        | none => trivial
        | some sectors =>
          simp only [always_bind, piece, copyOut_always, more, ↓reduceIte, advance_eq]
          refine ⟨harmless.1, fun _ => (readFATEntry_always _ _ _ _).mpr fun reply => ?_⟩
          split
          · trivial
          · exact (rest _).mpr harmless.2

theorem walkChain_always {touch : Nat → Nat → Prop} (fsbi : SbInfo) (n cluster : Nat)
    {post : Nat → Prop} (every : ∀ c, post c) : Always touch Anything (walkChain fsbi n cluster) post := by
  induction n generalizing cluster with
  | zero => exact every cluster
  | succ n ih =>
    simp only [walkChain, always_bind]
    exact (readFATEntry_always _ _ _ _).mpr fun reply => ih _

theorem walkChain_some {touch : Nat → Nat → Prop} {fsbi : SbInfo} {n cluster : Nat}
    {post : Nat → Prop} (some_cluster : cluster ≠ 0)
    (h : Always touch Anything (walkChain fsbi n cluster) post) : ∃ c, c ≠ 0 ∧ post c := by
  induction n generalizing cluster with
  | zero => exact ⟨cluster, some_cluster, h⟩
  | succ n ih =>
    simp only [walkChain, always_bind] at h
    exact ih (by decide : 2 ≠ 0) (readFATEntry_two h)

/- count as FAT32_read clips it at the end of the file, in an unsigned long. -/
def readCount (inode : IndexNode) (position : Int) (count : Nat) : Nat :=
  if ((position + count) % 2 ^ 64).toNat > inode.fileSize
    then ((inode.fileSize - position) % 2 ^ 64).toNat else count

def roomAt (fsbi : SbInfo) (position : Int) : Nat :=
  (fsbi.bytesPerCluster - position.tmod fsbi.bytesPerCluster).toNat

theorem room_at {fsbi : SbInfo} (mounted : Mounted fsbi) {position : Int} (forward : 0 ≤ position) :
    Room fsbi (position.tmod fsbi.bytesPerCluster) (roomAt fsbi position) := by
  have some_bytes := mounted.some_bytes
  have low := Int.tmod_nonneg (fsbi.bytesPerCluster : Int) forward
  have high := Int.tmod_lt_of_pos position (b := (fsbi.bytesPerCluster : Int)) (by omega)
  refine ⟨low, ?_, ?_⟩
  · unfold roomAt
    omega
  · unfold roomAt
    omega

theorem toInt32_bounds (value : Int) : -(2 ^ 31) ≤ toInt32 value ∧ toInt32 value < 2 ^ 31 := by
  have low := @Int.le_bmod value (2 ^ 32) (by decide)
  have high := @Int.bmod_lt value (2 ^ 32) (by decide)
  unfold toInt32
  omega

theorem fat32_read_confined {fsbi : SbInfo} (mounted : Mounted fsbi) (inode : IndexNode)
    {position : Int} (forward : 0 ≤ position) {buf : Nat} (word : buf < 2 ^ 64) (count : Nat) :
    Confined (FAT32Read fsbi inode buf count position) ↔ inode.firstCluster = 0 ∨
      PiecesBelow fsbi.bytesPerCluster (roomAt fsbi position)
        (toInt32 (readCount inode position count)) buf := by
  have some_bytes : ¬ fsbi.bytesPerCluster = 0 := Nat.pos_iff_ne_zero.mp mounted.some_bytes
  obtain ⟨low, high⟩ := toInt32_bounds (readCount inode position count)
  have loop := fun cluster => @read_pieces_confined fsbi mounted
    ((toInt32 (readCount inode position count)).toNat + 1) cluster buf (roomAt fsbi position)
    (toInt32 (readCount inode position count)) (position.tmod fsbi.bytesPerCluster) position
    (room_at mounted forward) low high (Nat.lt_succ_self _) word
  unfold Confined at loop ⊢
  unfold FAT32Read
  by_cases empty : inode.firstCluster = 0
  · simp [some_bytes, empty]
  · simp only [some_bytes, empty, ↓reduceIte, always_bind, always_alloc, always_pure, false_or]
    constructor
    · intro every
      obtain ⟨cluster, _, pieces⟩ := walkChain_some empty (every zeros)
      exact (loop cluster).mp pieces
    · intro below block
      exact walkChain_always _ _ _ fun cluster => (loop cluster).mpr below

theorem writeFATCopies_always (touch : Nat → Nat → Prop) (fsbi : SbInfo) (e : Nat) (buf : Memory)
    (left i : Nat) (post : Unit → Prop) :
    Always touch Anything (writeFATCopies fsbi e buf left i) post ↔ post () := by
  induction left generalizing i with
  | zero => exact Iff.rfl
  | succ left ih => simp [writeFATCopies, ih]

theorem writeFATEntry_always (touch : Nat → Nat → Prop) (fsbi : SbInfo) (e value : Nat)
    (post : Unit → Prop) :
    Always touch Anything (DISK1FAT32WriteFATEntry fsbi e value) post ↔ post () := by
  simp [DISK1FAT32WriteFATEntry, writeFATCopies_always]

theorem fat32WriteInode_always (touch : Nat → Nat → Prop) (fsbi : SbInfo) (inode : IndexNode)
    (post : Unit → Prop) : Always touch Anything (fat32WriteInode fsbi inode) post ↔ post () := by
  unfold fat32WriteInode
  split
  · exact Iff.rfl
  · simp

theorem findAvailable_always {touch : Nat → Nat → Prop} (fsbi : SbInfo) (left i : Nat)
    {post : Nat → Prop} (every : ∀ c, post c) :
    Always touch Anything (findAvailable fsbi left i) post := by
  induction left generalizing i with
  | zero => exact every 0
  | succ left ih =>
    simp only [findAvailable, always_bind, always_readSectors]
    intro reply
    split
    · exact every _
    · exact ih (i + 1)

/- A table that is zero but for entry 0: the first free entry is 1. -/
def oneUsed : Memory := fun i => if i = 0 then 2 else 0

theorem freeIn_oneUsed : freeIn oneUsed = some 1 := by decide +kernel

theorem find_some {touch : Nat → Nat → Prop} {fsbi : SbInfo} {post : Nat → Prop}
    (some_table : fsbi.sectorPerFAT ≠ 0)
    (h : Always touch Anything (FAT32FindAvailableCluster fsbi) post) : ∃ c, c ≠ 0 ∧ post c := by
  unfold FAT32FindAvailableCluster at h
  obtain ⟨n, sectors⟩ := Nat.exists_eq_succ_of_ne_zero some_table
  rw [sectors] at h
  simp only [findAvailable, always_bind, always_readSectors] at h
  have reply := h (some oneUsed)
  simp only [received, Option.getD_some, freeIn_oneUsed] at reply
  exact ⟨1, by decide, by simpa using reply⟩

theorem extendChain_always {fsbi : SbInfo} (s : Writing) {post : Option Writing → Prop}
    (full : post none) (linked : ∀ cluster, post (some { s with cluster := cluster, flags := true })) :
    Always Below Anything (extendChain fsbi s) post := by
  simp only [extendChain, always_bind]
  apply findAvailable_always
  intro next
  split
  · exact full
  · simp only [always_bind, writeFATEntry_always, always_pure]
    exact linked next

theorem write_piece_last {fsbi : SbInfo} {room : Nat} {s : Writing} {again : Writing → Prog Leave}
    (h : Room fsbi s.offset room) (last : s.index ≤ room) :
    Confined (writePiece fsbi again s) ↔ PieceBelow s.buf s.index := by
  have whole := pieceLength_last h last
  simp only [Confined, writePiece, always_bind, whole]
  rw [copyIn_always]
  · simp [Writing.past]
  · intro b b'
    simp [Writing.past]

theorem write_piece_rest {fsbi : SbInfo} {room : Nat} {s : Writing} {again : Writing → Prog Leave}
    {rest : Prop} (unfinished : ¬ s.index - room = 0)
    (follows : ∀ cluster flags buffer, Confined (again
      { s.past room buffer with cluster := cluster, flags := flags }) ↔ rest) (buffer : Memory) :
    (∀ written : Bool, Always Below Anything (if written = false then
        pure s.failed
      else if (s.past room buffer).index = 0 then
        pure (.done ⟨0, (s.past room buffer).index, (s.past room buffer).position⟩)
      else do
        let next ← DISK1FAT32ReadFATEntry fsbi (s.past room buffer).cluster
        if next ≥ 0x0ffffff8 then
          match ← extendChain fsbi (s.past room buffer) with
          | none => return .full (s.past room buffer).position
          | some s => again s
        else again (s.past room buffer)) fun _ => True) ↔ rest := by
  have same : Confined (again (s.past room buffer)) ↔ rest := follows s.cluster s.flags buffer
  constructor
  · intro every
    have go := every true
    simp only [Bool.true_eq_false, ↓reduceIte, Writing.past, unfinished, always_bind] at go
    have next := readFATEntry_two go
    simp only [ge_iff_le, Nat.reduceLeDiff, ↓reduceIte] at next
    exact same.mp next
  · intro fine written
    cases written with
    | false => trivial
    | true =>
      simp only [Bool.true_eq_false, ↓reduceIte, Writing.past, unfinished, always_bind]
      refine (readFATEntry_always _ _ _ _).mpr fun reply => ?_
      split
      · simp only [always_bind]
        apply extendChain_always
        · trivial
        · exact fun cluster => (follows cluster true buffer).mpr fine
      · exact same.mpr fine

theorem write_piece_more {fsbi : SbInfo} (mounted : Mounted fsbi) {room : Nat} {s : Writing}
    {again : Writing → Prog Leave} {rest : Prop} (h : Room fsbi s.offset room)
    (more : ¬ s.index ≤ room)
    (follows : ∀ cluster flags buffer, Confined (again
      { s.past room buffer with cluster := cluster, flags := flags }) ↔ rest) :
    Confined (writePiece fsbi again s) ↔ PieceBelow s.buf room ∧ rest := by
  have piece := pieceLength_more mounted h more
  have unfinished : ¬ s.index - room = 0 := by omega
  have ready := @write_piece_rest fsbi room s again rest unfinished follows
  simp only [Confined, writePiece, always_bind, piece, always_writeSectors, Anything, true_and]
  rw [copyIn_always]
  · have kept := kept_room mounted h s.buf
    simp only [kept, true_implies]
    exact and_congr_right' (ready s.buffer)
  · intro b b'
    exact (ready b).trans (ready b').symm

/- The loop of FAT32_write is confined exactly if its pieces are. -/
theorem write_pieces_confined {fsbi : SbInfo} (mounted : Mounted fsbi) {fuel room : Nat}
    {s : Writing} (h : Room fsbi s.offset room) (low : -(2 ^ 31) ≤ s.index)
    (high : s.index < 2 ^ 31) (enough : s.index.toNat < fuel) (word : s.buf < 2 ^ 64) :
    Confined (writePieces fsbi fuel s) ↔
      PiecesBelow fsbi.bytesPerCluster room s.index s.buf := by
  induction fuel generalizing s room with
  | zero => omega
  | succ fuel ih =>
    have body : ∀ flags sector buffer, Confined (writePiece fsbi (writePieces fsbi fuel)
        { s with flags := flags, sector := sector, buffer := buffer }) ↔
        PiecesBelow fsbi.bytesPerCluster room s.index s.buf := by
      intro flags sector buffer
      by_cases last : s.index ≤ room
      · rw [pieces_single last low high]
        exact write_piece_last h last
      · rw [pieces_more (by omega) h.some_room mounted.some_bytes high word]
        have some_room := h.some_room
        apply @write_piece_more fsbi mounted room
          { s with flags := flags, sector := sector, buffer := buffer } _ _ h last
        intro cluster flags buffer
        rw [ih (room_whole mounted)]
        · simp only [Writing.past, advance_eq]
        · simp only [Writing.past]
          omega
        · simp only [Writing.past]
          omega
        · simp only [Writing.past]
          omega
        · simp only [Writing.past, advance_eq]
          exact Nat.mod_lt _ (by decide)
    simp only [Confined, writePieces, loadCluster]
    by_cases kept : s.flags
    · simp only [kept, ↓reduceIte, always_bind, always_pure]
      exact body s.flags s.sector s.buffer
    · simp only [kept, Bool.false_eq_true, ↓reduceIte, always_bind, always_readSectors,
        always_pure]
      constructor
      · intro every
        exact (body false _ _).mp (every (some zeros))
      · intro below reply
        cases reply with
        | none => trivial
        | some sectors => exact (body false _ _).mpr below

theorem confined_then {α β : Type} (p : Prog α) {f : α → Prog β}
    (silent : ∀ a, Confined (f a)) : Confined (p >>= f) ↔ Confined p := by
  unfold Confined at silent ⊢
  rw [always_bind]
  constructor
  · exact fun h => always_mono h fun _ _ => trivial
  · exact fun h => always_mono h fun a _ => silent a

theorem writeAt_confined {fsbi : SbInfo} (mounted : Mounted fsbi) (inode : IndexNode)
    (cluster : Nat) (flags : Bool) (buffer : Memory) {position : Int} (forward : 0 ≤ position)
    {buf : Nat} (word : buf < 2 ^ 64) (count : Nat) :
    Confined (writeAt fsbi inode cluster flags buffer buf count position) ↔
      PiecesBelow fsbi.bytesPerCluster (roomAt fsbi position) (toInt32 count) buf := by
  obtain ⟨low, high⟩ := toInt32_bounds count
  have loop : ∀ index : Int, -(2 ^ 31) ≤ index → index < 2 ^ 31 →
      (Confined (writePieces fsbi (index.toNat + 1) ⟨cluster, 0, flags, index,
          position.tmod fsbi.bytesPerCluster, buf, buffer, position⟩) ↔
        PiecesBelow fsbi.bytesPerCluster (roomAt fsbi position) index buf) := by
    intro index low high
    exact write_pieces_confined mounted (room_at mounted forward) low high
      (Nat.lt_succ_self _) word
  refine Iff.trans (confined_then _ ?_) (loop _ low high)
  intro leave
  cases leave with
  | full position => trivial
  | done last =>
    simp only [Confined]
    split
    · simp [fat32WriteInode_always]
    · trivial

theorem fat32_write_confined {fsbi : SbInfo} (mounted : Mounted fsbi) (inode : IndexNode)
    {position : Int} (forward : 0 ≤ position) {buf : Nat} (word : buf < 2 ^ 64) (count : Nat) :
    Confined (FAT32Write fsbi inode buf count position) ↔
      (inode.firstCluster = 0 ∧ fsbi.sectorPerFAT = 0) ∨
      PiecesBelow fsbi.bytesPerCluster (roomAt fsbi position) (toInt32 count) buf := by
  have some_bytes : ¬ fsbi.bytesPerCluster = 0 := Nat.pos_iff_ne_zero.mp mounted.some_bytes
  have at_ := fun inode cluster flags buffer =>
    @writeAt_confined fsbi mounted inode cluster flags buffer position forward buf word count
  unfold Confined at at_ ⊢
  unfold FAT32Write
  by_cases empty : inode.firstCluster = 0
  · by_cases no_table : fsbi.sectorPerFAT = 0
    · simp [some_bytes, empty, no_table, FAT32FindAvailableCluster, findAvailable]
    · simp only [some_bytes, empty, no_table, ↓reduceIte, always_bind, always_alloc,
        and_false, false_or]
      constructor
      · intro every
        obtain ⟨cluster, found, go⟩ := find_some no_table (every zeros)
        simp only [found, ↓reduceIte, always_bind, fat32WriteInode_always,
          writeFATEntry_always] at go
        exact (at_ _ _ _ _).mp go
      · intro below block
        apply findAvailable_always
        intro cluster
        by_cases none_free : cluster = 0
        · simp [none_free]
        · simp only [none_free, ↓reduceIte, always_bind, fat32WriteInode_always,
            writeFATEntry_always]
          exact (at_ _ _ _ _).mpr below
  · simp only [some_bytes, empty, ↓reduceIte, always_bind, always_alloc, false_and,
      false_or]
    constructor
    · intro every
      obtain ⟨cluster, found, go⟩ := walkChain_some empty (every zeros)
      simp only [found, ↓reduceIte] at go
      exact (at_ _ _ _ _).mp go
    · intro below block
      apply walkChain_always
      intro cluster
      by_cases broken : cluster = 0
      · simp [broken]
      · simp only [broken, ↓reduceIte]
        exact (at_ _ _ _ _).mpr below

theorem seekCluster_always {touch : Nat → Nat → Prop} (fsbi : SbInfo) (n cluster : Nat)
    {post : Option Nat → Prop} (every : ∀ c, post c) :
    Always touch Anything (seekCluster fsbi n cluster) post := by
  induction n generalizing cluster with
  | zero => exact every _
  | succ n ih =>
    simp only [seekCluster, always_bind]
    refine (readFATEntry_always _ _ _ _).mpr fun reply => ?_
    split
    · exact every none
    · exact ih _

theorem seekCluster_some {touch : Nat → Nat → Prop} {fsbi : SbInfo} {n cluster : Nat}
    {post : Option Nat → Prop} (h : Always touch Anything (seekCluster fsbi n cluster) post) :
    ∃ c, post (some c) := by
  induction n generalizing cluster with
  | zero => exact ⟨cluster, h⟩
  | succ n ih =>
    simp only [seekCluster, always_bind] at h
    have next := readFATEntry_two h
    exact @ih 2 (by simpa using next)

theorem readdirFrom_always {touch : Nat → Nat → Prop} (fsbi : SbInfo) (before block : Memory)
    (fuel cluster : Nat) (position : Int) {post : Option (View × Int) × Int → Prop}
    (every : ∀ r, post r) :
    Always touch Anything (readdirFrom fsbi before block fuel cluster position) post := by
  induction fuel generalizing block cluster position with
  | zero => trivial
  | succ fuel ih =>
    simp only [readdirFrom, always_bind, always_readSectors]
    intro reply
    cases reply with
    | none => exact every _
    | some reply =>
      dsimp only
      split
      · exact every _
      · simp only [always_bind]
        refine (readFATEntry_always _ _ _ _).mpr fun reply => ?_
        split
        · exact ih _ _ _
        · exact every _

def letters : Memory := fun _ => 0x41

theorem around_letters (p : Int) : around letters letters p = 0x41 := by
  unfold around
  split <;> rfl

theorem byteAt_letters (p : Int) : byteAt (around letters letters) p = 0x41 := by
  simp [byteAt, around_letters]

theorem readdirFrom_letters {touch : Nat → Nat → Prop} {fsbi : SbInfo} (mounted : Mounted fsbi)
    {fuel cluster : Nat} {position : Int} {post : Option (View × Int) × Int → Prop}
    (h : Always touch Anything (readdirFrom fsbi letters letters (fuel + 1) cluster position) post) :
    ∃ p position, post (some (around letters letters, p), position) := by
  have some_bytes := mounted.some_bytes
  have within := Int.tmod_lt_of_pos position (Int.natCast_pos.mpr some_bytes)
  simp only [readdirFrom, always_bind, always_readSectors] at h
  have reply := h (some letters)
  have same : copy letters 0 letters 0 (512 * fsbi.sectorPerCluster) = letters := by
    funext i
    simp [copy, letters]
  obtain ⟨n, entries⟩ : ∃ n, entriesFrom fsbi (position.tmod fsbi.bytesPerCluster) = n + 1 := by
    unfold entriesFrom
    exact Nat.exists_eq_add_one.mpr (by omega)
  have here : ∀ p, live (around letters letters) p = true := by
    intro p
    simp [live, dirAttr, dirName, byteAt_letters, attrLongName]
  simp only [same, entries, firstLive, here, ↓reduceIte] at reply
  exact ⟨_, _, reply⟩

theorem readdirName_letters (fuel : Nat) (p : Int) :
    ∃ name, readdirName fuel (around letters letters) p = some name := by
  have short : longSlot (around letters letters) (p - 32) = false := by
    simp [longSlot, ldirAttr, byteAt_letters, attrLongName]
  exact ⟨shortName (around letters letters) p, by simp [readdirName, short]⟩

theorem countSlots_le {v : View} {fuel n : Nat} {p : Int} (counted : countSlots v fuel p = some n) :
    n ≤ fuel := by
  induction fuel generalizing p n with
  | zero => simp [countSlots] at counted
  | succ fuel ih =>
    simp only [countSlots] at counted
    split at counted
    · split at counted
      · cases counted
        omega
      · obtain ⟨m, below, made⟩ := Option.map_eq_some_iff.mp counted
        have small := ih below
        omega
    · cases counted
      omega

theorem longName_length (v : View) (n : Nat) (p : Int) : (longName v n p).length ≤ 13 * n := by
  induction n generalizing p with
  | zero => simp [longName]
  | succ n ih =>
    have slot : (slotName v p).length ≤ 13 := by
      have short := List.length_filterMap_le (fun x => longChar (ldirName v p x)) (List.range 13)
      simpa [slotName] using short
    have rest := ih (p - 32)
    simp only [longName, List.length_append]
    omega

theorem shortPart_length (v : View) (p : Int) (flag left x : Nat) :
    (shortPart v p flag left x).length ≤ left := by
  induction left generalizing x with
  | zero => simp [shortPart]
  | succ left ih =>
    have rest := ih (x + 1)
    simp only [shortPart]
    split
    · simp
    · simp only [List.length_cons]
      omega

theorem readdirName_length {fuel : Nat} {v : View} {p : Int} {name : List UInt8}
    (named : readdirName fuel v p = some name) : name.length ≤ 13 * fuel + 12 := by
  simp only [readdirName] at named
  split at named
  · obtain ⟨n, counted, made⟩ := Option.map_eq_some_iff.mp named
    have slots := countSlots_le counted
    have length := longName_length v n (p - 32)
    rw [made] at length
    omega
  · rw [← Option.some.inj named]
    have base := shortPart_length v p lowercaseBase 8 0
    have ext := shortPart_length v p lowercaseExt 3 8
    simp only [shortName]
    split
    · omega
    · split
      · omega
      · simp only [List.length_append, List.length_cons]
        omega

theorem fillDentry_confined {buf : Nat} {name : List UInt8} (short : name.length < 2 ^ 63) :
    Confined (fillDentry buf name) ↔ buf < taskSize := by
  unfold Confined fillDentry
  by_cases low : buf < taskSize
  · simp only [low, true_and, iff_true]
    by_cases inside : (buf + (sizeofDirent + name.length)) % 2 ^ 64 ≤ taskSize
    · have checked : verifyArea buf (sizeofDirent + name.length) = true := by
        simpa only [verifyArea, decide_eq_true_eq] using inside
      have ranges : Below ((buf + sizeofDirent) % 2 ^ 64) name.length ∧
          Below ((buf + 16) % 2 ^ 64) 8 ∧ Below ((buf + 8) % 2 ^ 64) 8 ∧ Below buf 8 := by
        simp only [Below, sizeofDirent, taskSize] at low inside ⊢
        omega
      obtain ⟨text, first, second, third⟩ := ranges
      simp only [checked, not_true_eq_false, ↓reduceIte]
      by_cases empty : name.length = 0
      · simp [empty, first, second, third, -Nat.reducePow]
      · simp [empty, text, first, second, third, -Nat.reducePow]
    · have refused : ¬ verifyArea buf (sizeofDirent + name.length) = true := by
        simpa only [verifyArea, decide_eq_true_eq] using inside
      simp [refused]
  · have outside : ¬ Below buf 8 := by
      simp only [Below, taskSize] at low ⊢
      omega
    simp only [low, false_and, ↓reduceIte, iff_false]
    by_cases empty : name.length = 0
    · simp [empty, outside]
    · simp [empty, outside]

theorem getdents_confined {fsbi : SbInfo} (mounted : Mounted fsbi) (firstCluster : Nat)
    (position : Int) {fuel : Nat} (some_fuel : 0 < fuel) (slots : fuel < 2 ^ 59) (dirent : Nat) :
    Confined (do
      match ← FAT32Readdir fuel fsbi firstCluster position with
      | (none, _) => return 0
      | (some name, _) => fillDentry dirent name) ↔ dirent < taskSize := by
  have some_bytes : ¬ fsbi.bytesPerCluster = 0 := Nat.pos_iff_ne_zero.mp mounted.some_bytes
  unfold Confined
  simp only [FAT32Readdir, some_bytes, ↓reduceIte, always_bind, always_alloc]
  constructor
  · intro every
    obtain ⟨cluster, found⟩ := seekCluster_some (every letters letters)
    obtain ⟨more, rfl⟩ := Nat.exists_eq_succ_of_ne_zero (Nat.pos_iff_ne_zero.mp some_fuel)
    simp only [always_bind] at found
    obtain ⟨p, position', here⟩ := readdirFrom_letters mounted found
    obtain ⟨name, named⟩ := readdirName_letters (more + 1) p
    simp only [named] at here
    have short := readdirName_length named
    exact (fillDentry_confined (by omega)).mp here
  · intro low before block
    apply seekCluster_always
    intro cluster
    cases cluster with
    | none => trivial
    | some cluster =>
      simp only [always_bind]
      apply readdirFrom_always
      intro r
      obtain ⟨entry, position'⟩ := r
      cases entry with
      | none => trivial
      | some entry =>
        dsimp only
        cases named : readdirName fuel entry.1 entry.2 with
        | none => trivial
        | some name =>
          have short := readdirName_length named
          exact (fillDentry_confined (by omega)).mpr low

/- A checked copy of size bytes is harmless unless the sum of the check wraps. -/
def NoWrap (buf size : Nat) : Prop := buf + size < 2 ^ 64 ∨ 2 ^ 64 + taskSize < buf + size

theorem copyToUser_confined (data : Memory) {to_ size : Nat} (word : to_ < 2 ^ 64)
    (long : size < 2 ^ 64) : Confined (copyToUserProg data to_ size) ↔ NoWrap to_ size := by
  unfold Confined copyToUserProg
  by_cases inside : (to_ + size) % 2 ^ 64 ≤ taskSize
  · have checked : verifyArea to_ size = true := by
      simpa only [verifyArea, decide_eq_true_eq] using inside
    simp only [taskSize] at inside
    simp only [checked, ↓reduceIte, always_store, and_true, Below, NoWrap, taskSize]
    omega
  · have refused : ¬ verifyArea to_ size = true := by
      simpa only [verifyArea, decide_eq_true_eq] using inside
    simp only [taskSize] at inside
    simp only [refused, Bool.false_eq_true, ↓reduceIte, always_pure, true_iff, NoWrap, taskSize]
    omega

/- keyboard_read copies in one piece while that ends before the end of the array, else in
   two; a tail past the end makes the first piece nearly 2^64 bytes. -/
def KeyboardBelow (kb : KeyboardInputbuffer) (count buf : Nat) : Prop :=
  let counter := min count kb.count
  if counter + kb.pTail ≤ kbBufSize then NoWrap buf counter
  else if kb.pTail ≤ kbBufSize then
    NoWrap buf (kbBufSize - kb.pTail) ∧ NoWrap buf (counter - (kbBufSize - kb.pTail))
  else NoWrap buf (2 ^ 64 - (kb.pTail - kbBufSize)) ∧ NoWrap buf (counter + (kb.pTail - kbBufSize))

/- Keyboard.keyboardRead copies just these pieces. -/
theorem keyboardPieces_copied (kb : KeyboardInputbuffer) (r : Keyboard.Reader) :
    (Keyboard.keyboardRead kb r).2.1 = (keyboardPieces kb r.count).foldl
      (fun user piece => copyToUser kb.buf piece.1 user r.buf piece.2) r.user := by
  simp only [Keyboard.keyboardRead, keyboardPieces]
  generalize (if kb.count ≥ r.count then r.count else kb.count) = counter
  by_cases direct : (counter : Int) ≤ (kbBufSize : Int) - kb.pTail
  · rw [if_pos direct, if_pos direct]
    rfl
  · rw [if_neg direct, if_neg direct]
    rfl

theorem copyPieces_confined (kb : KeyboardInputbuffer) {buf : Nat} (word : buf < 2 ^ 64)
    (pieces : List (Nat × Nat)) (long : ∀ p ∈ pieces, p.2 < 2 ^ 64) :
    Confined (copyPieces kb buf pieces) ↔ ∀ p ∈ pieces, NoWrap buf p.2 := by
  induction pieces with
  | nil => simp [Confined, copyPieces]
  | cons p rest ih =>
    have first := copyToUser_confined (fun i => kb.buf (p.1 + i)) word (long p List.mem_cons_self)
    have others := ih fun q member => long q (List.mem_cons_of_mem p member)
    rw [List.forall_mem_cons, ← first, ← others]
    simp only [copyPieces, Confined, always_bind]
    constructor
    · intro both
      constructor
      · exact always_mono both fun _ _ => trivial
      · unfold copyToUserProg at both
        split at both
        · exact both.2
        · exact both
    · intro both
      unfold copyToUserProg at both ⊢
      split
      · rename_i checked
        simp only [checked, ↓reduceIte, always_store, and_true] at both ⊢
        exact both
      · exact both.2

theorem keyboard_read_confined {kb : KeyboardInputbuffer} (counted : kb.count < 2 ^ 31)
    (tail : kb.pTail < 2 ^ 62) {buf : Nat} (word : buf < 2 ^ 64) (count : Nat) :
    Confined (keyboardRead kb buf count) ↔ KeyboardBelow kb count buf := by
  have counter : (if kb.count ≥ count then count else kb.count) = min count kb.count := by
    split <;> omega
  have copies : Confined (keyboardRead kb buf count) ↔
      Confined (copyPieces kb buf (keyboardPieces kb count)) :=
    confined_then _ fun _ => trivial
  have size : kbBufSize = 100 := rfl
  rw [copies, copyPieces_confined kb word]
  · simp only [keyboardPieces, counter, KeyboardBelow]
    by_cases direct : min count kb.count + kb.pTail ≤ kbBufSize
    · have fits : ((min count kb.count : Nat) : Int) ≤ (kbBufSize : Int) - kb.pTail := by omega
      rw [if_pos fits, if_pos direct]
      simp
    · have wraps : ¬ ((min count kb.count : Nat) : Int) ≤ (kbBufSize : Int) - kb.pTail := by
        omega
      rw [if_neg wraps, if_neg direct]
      by_cases inside : kb.pTail ≤ kbBufSize
      · have first : (((kbBufSize : Int) - kb.pTail) % 2 ^ 64).toNat = kbBufSize - kb.pTail := by
          omega
        have second : ((((min count kb.count : Nat) : Int) -
            ((kbBufSize : Int) - kb.pTail)) % 2 ^ 64).toNat =
            min count kb.count - (kbBufSize - kb.pTail) := by omega
        rw [if_pos inside, first, second]
        simp
      · have first : (((kbBufSize : Int) - kb.pTail) % 2 ^ 64).toNat =
            2 ^ 64 - (kb.pTail - kbBufSize) := by omega
        have second : ((((min count kb.count : Nat) : Int) -
            ((kbBufSize : Int) - kb.pTail)) % 2 ^ 64).toNat =
            min count kb.count + (kb.pTail - kbBufSize) := by omega
        rw [if_neg inside, first, second]
        simp
  · intro p member
    simp only [keyboardPieces, counter] at member
    by_cases direct : ((min count kb.count : Nat) : Int) ≤ (kbBufSize : Int) - kb.pTail
    · rw [if_pos direct] at member
      rw [List.mem_singleton.mp member]
      dsimp only
      omega
    · rw [if_neg direct] at member
      rcases List.mem_cons.mp member with first | rest
      · rw [first]
        dsimp only
        omega
      · rw [List.mem_singleton.mp rest]
        dsimp only
        omega

inductive Call where
  | read
  | write
  | getdents
  deriving DecidableEq

def perform (fuel : Nat) : Call → Descriptor → Nat → Int → Prog Int
  | .read, d, buf, count => sysRead d buf count
  | .write, d, buf, count => sysWrite d buf count
  | .getdents, d, buf, count => sysGetdents fuel d buf count

/- A descriptor that a call can be made on: the volume is mounted, and the keyboard's driver keeps
   its counter an int and its tail near the array. From a negative position, which a write whose
   count is a negative int leaves, the transfers move what lies before their buffer; only
   FAT32_readdir is looked at there. -/
def Open (call : Call) : Descriptor → Prop
  | .file fsbi _ position => Mounted fsbi ∧ (call = .getdents ∨ 0 ≤ position)
  | .keyboard kb => kb.count < 2 ^ 31 ∧ kb.pTail < 2 ^ 62

def StaysBelow (call : Call) (d : Descriptor) (buf : Nat) (count : Int) : Prop :=
  count < 0 ∨
  match call, d with
  | .read, .file fsbi inode position => inode.firstCluster = 0 ∨
      PiecesBelow fsbi.bytesPerCluster (roomAt fsbi position)
        (toInt32 (readCount inode position count.toNat)) buf
  | .write, .file fsbi inode position => (inode.firstCluster = 0 ∧ fsbi.sectorPerFAT = 0) ∨
      PiecesBelow fsbi.bytesPerCluster (roomAt fsbi position) (toInt32 count.toNat) buf
  | .getdents, .file _ _ _ => buf < taskSize
  | .read, .keyboard kb => KeyboardBelow kb count.toNat buf
  | _, .keyboard _ => True

theorem sys_read_confined {d : Descriptor} (opened : Open .read d) {buf : Nat} (word : buf < 2 ^ 64)
    (count : Int) : Confined (sysRead d buf count) ↔ StaysBelow .read d buf count := by
  unfold sysRead StaysBelow
  by_cases negative : count < 0
  · simp [Confined, negative]
  · cases d with
    | file fsbi inode position =>
      simp only [negative, ↓reduceIte, false_or]
      have returns := confined_then (FAT32Read fsbi inode buf count.toNat position)
        (f := fun last => (return last.1 : Prog Int)) fun _ => trivial
      have start := opened.2.resolve_left (by decide)
      exact returns.trans (fat32_read_confined opened.1 inode start word _)
    | keyboard kb =>
      simp only [negative, ↓reduceIte, false_or]
      exact keyboard_read_confined opened.1 opened.2 word _

theorem sys_write_confined {d : Descriptor} (opened : Open .write d) {buf : Nat} (word : buf < 2 ^ 64)
    (count : Int) : Confined (sysWrite d buf count) ↔ StaysBelow .write d buf count := by
  unfold sysWrite StaysBelow
  by_cases negative : count < 0
  · simp [Confined, negative]
  · cases d with
    | file fsbi inode position =>
      simp only [negative, ↓reduceIte, false_or]
      have returns := confined_then (FAT32Write fsbi inode buf count.toNat position)
        (f := fun last => (return last.1 : Prog Int)) fun _ => trivial
      have start := opened.2.resolve_left (by decide)
      exact returns.trans (fat32_write_confined opened.1 inode start word _)
    | keyboard kb => simp [Confined, negative]

theorem sys_getdents_confined {d : Descriptor} (opened : Open .getdents d) {fuel : Nat}
    (some_fuel : 0 < fuel) (slots : fuel < 2 ^ 59) (buf : Nat) (count : Int) :
    Confined (sysGetdents fuel d buf count) ↔ StaysBelow .getdents d buf count := by
  unfold sysGetdents StaysBelow
  by_cases negative : count < 0
  · simp [Confined, negative]
  · cases d with
    | file fsbi inode position =>
      simp only [negative, ↓reduceIte, false_or]
      exact getdents_confined opened.1 _ _ some_fuel slots buf
    | keyboard kb => simp [Confined, negative]

/-- A call keeps to the addresses of the caller exactly if its arguments say so. -/
theorem user_pointers_confined (fuel : Nat) (some_fuel : 0 < fuel) (slots : fuel < 2 ^ 59)
    (call : Call) (d : Descriptor) (opened : Open call d) (buf : Nat) (word : buf < 2 ^ 64)
    (count : Int) : Confined (perform fuel call d buf count) ↔ StaysBelow call d buf count := by
  cases call with
  | read => exact sys_read_confined opened word count
  | write => exact sys_write_confined opened word count
  | getdents => exact sys_getdents_confined opened some_fuel slots buf count

theorem confined_run {fuel : Nat} {call : Call} {d : Descriptor} {buf : Nat} {count r : Int}
    {w w' : World} (confined : Confined (perform fuel call d buf count))
    (ran : run (perform fuel call d buf count) w = some (r, w')) (start : w.touched = []) :
    ∀ t ∈ w'.touched, Below t.1 t.2 :=
  (run_always confined ran (by simp [start]) fun _ _ => trivial).2.1

def smallVolume : SbInfo := ⟨0, 8, 1, 512, 4, 2, 1, 2⟩
def smallFile : Descriptor := .file smallVolume ⟨1, 2, 0, 0⟩ 0
def blank : World := ⟨zeros, zeros, [], [], []⟩

theorem smallFile_open (call : Call) : Open call smallFile :=
  ⟨⟨by decide, by decide⟩, Or.inr (by decide)⟩

theorem user_pointers_confined_low :
    Confined (perform 1 .read smallFile 0x7ffffffffffe 1) ↔
      StaysBelow .read smallFile 0x7ffffffffffe 1 :=
  user_pointers_confined 1 (by decide) (by decide) .read smallFile (smallFile_open .read) _
    (by decide) 1

/- Reading the byte into the kernel. -/
theorem user_pointers_escape :
    ¬ ∀ (call : Call) (d : Descriptor) (buf : Nat) (count r : Int) (w w' : World),
      Open call d → buf < 2 ^ 64 → 0 ≤ count → w.touched = [] →
        run (perform 1 call d buf count) w = some (r, w') → ∀ t ∈ w'.touched, Below t.1 t.2 := by
  intro stays
  have touched : (run (perform 1 .read smallFile 0xffff800000000000 1) blank).map
      (fun a => a.2.touched) = some [(0xffff800000000000, 1)] := by decide +kernel
  obtain ⟨⟨r, w'⟩, ran, used⟩ := Option.map_eq_some_iff.mp touched
  have outside := stays .read smallFile 0xffff800000000000 1 r blank w'
    (smallFile_open .read) (by decide) (by decide) rfl ran (0xffff800000000000, 1) (used ▸ List.mem_singleton.mpr rfl)
  exact absurd outside (show ¬ 0xffff800000000000 + 1 ≤ taskSize + 1 by decide)

end UserPointers

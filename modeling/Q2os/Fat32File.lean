import Q2os.Fat32
import Q2os.UserMemory

/- Reading and writing a file of the volume through a pointer of the caller. -/
namespace Fat32
open ByteMemory BlockProgram UserMemory

def ENOSPC : Int := 52
def EFAULT : Int := 21
def EIO : Int := 29
def EOVERFLOW : Int := 65

structure IndexNode where
  fileSize : Nat
  firstCluster : Nat
  dentryLocation : Nat
  dentryPosition : Nat

/- The bytes memcpy moves for a long Num: Num/8 quadwords, then what the low bits of Num
   ask for. -/
def memcpySize (num : Int) : Nat := (num.tdiv 8 % 2 ^ 64).toNat * 8 + (num % 8).toNat

/- The bytes that move for one piece: copy_to_user and copy_from_user check addresses below
   TASK_SIZE, memcpy takes the others as they are. -/
def pieceSize (buf : Nat) (length : Int) : Nat :=
  if buf < taskSize then
    let size := (length % 2 ^ 64).toNat
    if verifyArea buf size then size else 0
  else memcpySize length

def Inside (fsbi : SbInfo) (offset : Int) (size : Nat) : Prop :=
  0 ≤ offset ∧ offset + size ≤ fsbi.bytesPerCluster

instance (fsbi : SbInfo) (offset : Int) (size : Nat) : Decidable (Inside fsbi offset size) :=
  inferInstanceAs (Decidable (_ ∧ _))

def copyOut (fsbi : SbInfo) (buffer : Memory) (offset : Int) (buf : Nat) (length : Int) :
    Prog Unit :=
  let size := pieceSize buf length
  if size = 0 then return ()
  else do
    store buf size fun i => buffer (offset.toNat + i)
    if Inside fsbi offset size then return () else .fault

def copyIn (fsbi : SbInfo) (buffer : Memory) (offset : Int) (buf : Nat) (length : Int) :
    Prog Memory :=
  let size := pieceSize buf length
  if size = 0 then return buffer
  else do
    let memory ← load buf size
    if Inside fsbi offset size then return copy memory buf buffer offset.toNat size else .fault

def pieceLength (fsbi : SbInfo) (index offset : Int) : Int :=
  if index ≤ fsbi.bytesPerCluster - offset then index
  else toInt32 (fsbi.bytesPerCluster - offset)

def advance (buf : Nat) (length : Int) : Nat := ((buf + length) % 2 ^ 64).toNat

/- What the loops of FAT32_read and FAT32_write leave: retval, index and *position. -/
structure Outcome where
  retval : Int
  index : Int
  position : Int

/- The do loop of FAT32_read. -/
def readPieces (fsbi : SbInfo) : Nat → Nat → Int → Int → Nat → Int → Prog Outcome
  | 0, _, _, _, _, _ => .fault
  | fuel + 1, cluster, index, offset, buf, position => do
    match ← readSectors (clusterSector fsbi cluster) fsbi.sectorPerCluster with
    | none => return ⟨- EIO, index, position⟩
    | some reply =>
      let buffer := clusterBuffer fsbi reply
      let length := pieceLength fsbi index offset
      copyOut fsbi buffer offset buf length
      let index := index - length
      let position := position + length
      if index = 0 then return ⟨0, index, position⟩
      else
        let next ← DISK1FAT32ReadFATEntry fsbi cluster
        if next = 0 then return ⟨0, index, position⟩
        else readPieces fsbi fuel next index 0 (advance buf length) position

def FAT32Read (fsbi : SbInfo) (inode : IndexNode) (buf count : Nat) (position : Int) :
    Prog (Int × Int) := do
  if fsbi.bytesPerCluster = 0 then .fault
  let links := toInt32 (position.tdiv fsbi.bytesPerCluster)
  let offset := position.tmod fsbi.bytesPerCluster
  let _ ← alloc
  if inode.firstCluster = 0 then return (-EFAULT, position)
  let cluster ← walkChain fsbi links.toNat inode.firstCluster
  let count := if ((position + count) % 2 ^ 64).toNat > inode.fileSize
    then ((inode.fileSize - position) % 2 ^ 64).toNat else count
  let index := toInt32 count
  let last ← readPieces fsbi (index.toNat + 1) cluster index offset buf position
  return (if last.index = 0 then (count : Int).bmod (2 ^ 64) else last.retval, last.position)

def updateDirectory (buf : Memory) (at_ : Nat) (inode : IndexNode) : Memory :=
  let buf := setLittle buf (at_ + 28) inode.fileSize 4
  let buf := setLittle buf (at_ + 26) (inode.firstCluster % 2 ^ 16) 2
  let high := getLittle buf (at_ + 20) 2
  setLittle buf (at_ + 20) (high / 2 ^ 12 * 2 ^ 12 ||| inode.firstCluster / 2 ^ 16) 2

def fat32WriteInode (fsbi : SbInfo) (inode : IndexNode) : Prog Unit := do
  if inode.dentryLocation = 0 then return ()
  let sector := clusterSector fsbi inode.dentryLocation
  let _ ← alloc
  let reply ← readSectors sector fsbi.sectorPerCluster
  let buf := clusterBuffer fsbi (received reply)
  let buf := updateDirectory buf (32 * inode.dentryPosition) inode
  let _ ← writeSectors sector fsbi.sectorPerCluster buf

structure Writing where
  cluster : Nat
  sector : Nat
  flags : Bool
  index : Int
  offset : Int
  buf : Nat
  buffer : Memory
  position : Int

/- if(!flags) { sector = ...; read it }: the sector and the buffer, none if the read fails. -/
def loadCluster (fsbi : SbInfo) (s : Writing) : Prog (Option Writing) :=
  if s.flags then return some s
  else do
    let sector := clusterSector fsbi s.cluster
    let reply ← readSectors sector fsbi.sectorPerCluster
    return reply.map fun sectors =>
      { s with sector := sector, buffer := clusterBuffer fsbi sectors }

/- Linking a free cluster behind the last one; none when there is none. -/
def extendChain (fsbi : SbInfo) (s : Writing) : Prog (Option Writing) := do
  let next ← FAT32FindAvailableCluster fsbi
  if next = 0 then return none
  else
    DISK1FAT32WriteFATEntry fsbi s.cluster next
    DISK1FAT32WriteFATEntry fsbi next 0x0ffffff8
    return some { s with cluster := next, flags := true }

/- How the loop is left: break, the loop test, or return -ENOSPC from inside. -/
inductive Leave where
  | done (last : Outcome)
  | full (position : Int)

def Writing.failed (s : Writing) : Leave := .done ⟨- EIO, s.index, s.position⟩

def Writing.past (s : Writing) (length : Int) (buffer : Memory) : Writing :=
  { s with
    index := s.index - length
    offset := 0
    buf := advance s.buf length
    buffer := buffer
    position := s.position + length }

/- The loop body behind the read; again is the loop from its start. -/
def writePiece (fsbi : SbInfo) (again : Writing → Prog Leave) (s : Writing) : Prog Leave := do
  let length := pieceLength fsbi s.index s.offset
  let buffer ← copyIn fsbi s.buffer s.offset s.buf length
  let written ← writeSectors s.sector fsbi.sectorPerCluster buffer
  if written = false then return s.failed
  else
    let s := s.past length buffer
    if s.index = 0 then return .done ⟨0, s.index, s.position⟩
    else
      let next ← DISK1FAT32ReadFATEntry fsbi s.cluster
      if next ≥ 0x0ffffff8 then
        match ← extendChain fsbi s with
        | none => return .full s.position
        | some s => again s
      else again s

/- The do loop of FAT32_write. -/
def writePieces (fsbi : SbInfo) : Nat → Writing → Prog Leave
  | 0, _ => .fault
  | fuel + 1, s => do
    match ← loadCluster fsbi s with
    | none => return s.failed
    | some s => writePiece fsbi (writePieces fsbi fuel) s

def writeAt (fsbi : SbInfo) (inode : IndexNode) (cluster : Nat) (flags : Bool) (buffer : Memory)
    (buf count : Nat) (position : Int) : Prog (Int × IndexNode × Int) := do
  let index := toInt32 count
  let offset := position.tmod fsbi.bytesPerCluster
  match ← writePieces fsbi (index.toNat + 1)
      ⟨cluster, 0, flags, index, offset, buf, buffer, position⟩ with
  | .full position => return (-ENOSPC, inode, position)
  | .done last =>
    let retval := if last.index = 0 then (count : Int).bmod (2 ^ 64) else last.retval
    if (last.position % 2 ^ 64).toNat > inode.fileSize then
      let inode := { inode with fileSize := (last.position % 2 ^ 64).toNat }
      fat32WriteInode fsbi inode
      return (retval, inode, last.position)
    else return (retval, inode, last.position)

def FAT32Write (fsbi : SbInfo) (inode : IndexNode) (buf count : Nat) (position : Int) :
    Prog (Int × IndexNode × Int) := do
  if fsbi.bytesPerCluster = 0 then .fault
  let links := toInt32 (position.tdiv fsbi.bytesPerCluster)
  let buffer ← alloc
  if inode.firstCluster = 0 then
    let cluster ← FAT32FindAvailableCluster fsbi
    if cluster = 0 then return (-ENOSPC, inode, position)
    let inode := { inode with firstCluster := cluster }
    fat32WriteInode fsbi inode
    DISK1FAT32WriteFATEntry fsbi cluster 0x0ffffff8
    writeAt fsbi inode cluster true buffer buf count position
  else
    let cluster ← walkChain fsbi links.toNat inode.firstCluster
    if cluster = 0 then return (-ENOSPC, inode, position)
    writeAt fsbi inode cluster false buffer buf count position

def FAT32Lseek (inode : IndexNode) (position offset : Int) (origin : Nat) : Int × Int :=
  let pos := match origin with
    | 0 => offset
    | 1 => position + offset
    | _ => inode.fileSize + offset
  if pos < 0 ∨ (pos % 2 ^ 64).toNat > inode.fileSize then (-EOVERFLOW, position) else (pos, pos)

end Fat32

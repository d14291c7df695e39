import Q2os.BlockProgram

/- The volume of fat32.c: the mounted parameters, entries of the file allocation table and
   the transfers that read and write them. -/
namespace Fat32
open ByteMemory BlockProgram

/- struct FAT32_sb_info without the sectors nothing here uses. -/
structure SbInfo where
  startSector : Nat
  sectorCount : Nat
  sectorPerCluster : Nat
  bytesPerCluster : Nat
  dataFirstsector : Nat
  FAT1Firstsector : Nat
  sectorPerFAT : Nat
  numFATs : Nat

def zeros : Memory := fun _ => 0

def getLittle (buf : Memory) (at_ : Nat) : Nat → Nat
  | 0 => 0
  | n + 1 => (buf at_).toNat + 256 * getLittle buf (at_ + 1) n

def setLittle (buf : Memory) (at_ : Nat) (value : Nat) : Nat → Memory
  | 0 => buf
  | n + 1 => setLittle (Function.update buf at_ (UInt8.ofNat value)) (at_ + 1) (value / 256) n

def entryAt (buf : Memory) (i : Nat) : Nat := getLittle buf (4 * i) 4

def setEntry (buf : Memory) (i value : Nat) : Memory := setLittle buf (4 * i) value 4

/- The buffer after memset and a transfer whose result is not looked at. -/
def received (reply : Option Memory) : Memory := reply.getD zeros

def clusterBuffer (fsbi : SbInfo) (reply : Memory) : Memory :=
  copy reply 0 zeros 0 (512 * fsbi.sectorPerCluster)

def DISK1FAT32ReadFATEntry (fsbi : SbInfo) (fatEntry : Nat) : Prog Nat := do
  let e := fatEntry % 2 ^ 32
  let reply ← readSectors (fsbi.FAT1Firstsector + e / 128) 1
  return entryAt (received reply) (e % 128) % 2 ^ 28

/- for(i = 0;i < NumFATs;i++) from the copy i on. -/
def writeFATCopies (fsbi : SbInfo) (e : Nat) (buf : Memory) : Nat → Nat → Prog Unit
  | 0, _ => return ()
  | left + 1, i => do
    let _ ← writeSectors (fsbi.FAT1Firstsector + fsbi.sectorPerFAT * i + e / 128) 1 buf
    writeFATCopies fsbi e buf left (i + 1)

def DISK1FAT32WriteFATEntry (fsbi : SbInfo) (fatEntry value : Nat) : Prog Unit := do
  let e := fatEntry % 2 ^ 32
  let reply ← readSectors (fsbi.FAT1Firstsector + e / 128) 1
  let buf := received reply
  let old := entryAt buf (e % 128)
  let buf := setEntry buf (e % 128) (old / 2 ^ 28 * 2 ^ 28 + value % 2 ^ 28)
  writeFATCopies fsbi e buf fsbi.numFATs 0

/- for(j = 0;j < 128;j++) if((buf[j] & 0x0fffffff) == 0) -/
def freeIn (buf : Memory) : Option Nat :=
  (List.range 128).find? fun j => entryAt buf j % 2 ^ 28 = 0

def findAvailable (fsbi : SbInfo) : Nat → Nat → Prog Nat
  | 0, _ => return 0
  | left + 1, i => do
    let reply ← readSectors (fsbi.FAT1Firstsector + i) 1
    match freeIn (received reply) with
    | some j => return i * 128 + j
    | none => findAvailable fsbi left (i + 1)

def FAT32FindAvailableCluster (fsbi : SbInfo) : Prog Nat :=
  findAvailable fsbi fsbi.sectorPerFAT 0

def clusterSector (fsbi : SbInfo) (cluster : Nat) : Nat :=
  (fsbi.dataFirstsector + (cluster + (2 ^ 64 - 2)) * fsbi.sectorPerCluster) % 2 ^ 64

def walkChain (fsbi : SbInfo) : Nat → Nat → Prog Nat
  | 0, cluster => return cluster
  | n + 1, cluster => do
    let next ← DISK1FAT32ReadFATEntry fsbi cluster
    walkChain fsbi n next

def toInt32 (value : Int) : Int := value.bmod (2 ^ 32)

end Fat32

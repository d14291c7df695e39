import Q2os.Fat32

/- The directory entries of fat32.c: how FAT32_readdir spells a name and how FAT32_lookup
   compares one. Slots are found by their byte distance from the buffer of the cluster,
   which is negative where the code looks at the memory before it. -/
namespace Fat32
open ByteMemory BlockProgram

abbrev View := Int → UInt8

def around (before buf : Memory) : View := fun i =>
  if 0 ≤ i then buf i.toNat else before (-1 - i).toNat

def byteAt (v : View) (i : Int) : Nat := (v i).toNat

def wordAt (v : View) (i : Int) : Nat := byteAt v i + 256 * byteAt v (i + 1)

def dirName (v : View) (p : Int) (x : Nat) : Nat := byteAt v (p + x)
def dirAttr (v : View) (p : Int) : Nat := byteAt v (p + 11)
def dirNTRes (v : View) (p : Int) : Nat := byteAt v (p + 12)
def dirFstClusHI (v : View) (p : Int) : Nat := wordAt v (p + 20)
def dirFstClusLO (v : View) (p : Int) : Nat := wordAt v (p + 26)
def dirFileSize (v : View) (p : Int) : Nat := wordAt v (p + 28) + 2 ^ 16 * wordAt v (p + 30)

def ldirOrd (v : View) (p : Int) : Nat := byteAt v p
def ldirAttr (v : View) (p : Int) : Nat := byteAt v (p + 11)
def ldirName (v : View) (p : Int) (x : Nat) : Nat :=
  if x < 5 then wordAt v (p + 1 + 2 * x)
  else if x < 11 then wordAt v (p + 14 + 2 * (x - 5))
  else wordAt v (p + 28 + 2 * (x - 11))

def attrDirectory : Nat := 0x10
def attrLongName : Nat := 0x0f
def lowercaseBase : Nat := 8
def lowercaseExt : Nat := 16

def isDirectory (v : View) (p : Int) : Bool := dirAttr v p &&& attrDirectory ≠ 0

def live (v : View) (p : Int) : Bool :=
  dirAttr v p ≠ attrLongName ∧ dirName v p 0 ≠ 0xe5 ∧ dirName v p 0 ≠ 0x00 ∧ dirName v p 0 ≠ 0x05

/- The long slots FAT32_readdir takes. -/
def longSlot (v : View) (p : Int) : Bool :=
  ldirAttr v p = attrLongName ∧ ldirOrd v p ≠ 0xe5 ∧ ldirOrd v p ≠ 0x00 ∧ ldirOrd v p ≠ 0x05

/- The slots from p downwards to the one marked last; none when they do not end. -/
def countSlots (v : View) : Nat → Int → Option Nat
  | 0, _ => none
  | fuel + 1, p =>
    if longSlot v p then
      if ldirOrd v p &&& 0x40 ≠ 0 then some 1 else (countSlots v fuel (p - 32)).map (· + 1)
    else some 0

def longChar (c : Nat) : Option UInt8 :=
  if c ≠ 0xffff ∧ c ≠ 0x0000 then some (UInt8.ofNat c) else none

def slotName (v : View) (p : Int) : List UInt8 :=
  (List.range 13).filterMap fun x => longChar (ldirName v p x)

def longName (v : View) : Nat → Int → List UInt8
  | 0, _ => []
  | n + 1, p => slotName v p ++ longName v n (p - 32)

def shortPart (v : View) (p : Int) (flag : Nat) : Nat → Nat → List UInt8
  | 0, _ => []
  | left + 1, x =>
    if dirName v p x = 0x20 then []
    else
      let c := if dirNTRes v p &&& flag ≠ 0 then dirName v p x + 32 else dirName v p x
      UInt8.ofNat c :: shortPart v p flag left (x + 1)

def shortName (v : View) (p : Int) : List UInt8 :=
  let base := shortPart v p lowercaseBase 8 0
  if isDirectory v p then base
  else if dirName v p 8 = 0x20 then base
  else base ++ 0x2e :: shortPart v p lowercaseExt 3 8

def readdirName (fuel : Nat) (v : View) (p : Int) : Option (List UInt8) :=
  if longSlot v (p - 32) then (countSlots v fuel (p - 32)).map fun n => longName v n (p - 32)
  else some (shortName v p)

def firstLive (v : View) : Nat → Int → Option Int
  | 0, _ => none
  | left + 1, i => if live v i then some i else firstLive v left (i + 32)

def entriesFrom (fsbi : SbInfo) (i : Int) : Nat := ((fsbi.bytesPerCluster - i + 31) / 32).toNat

def directorySector (fsbi : SbInfo) (cluster : Nat) : Nat :=
  (fsbi.dataFirstsector + (cluster + (2 ^ 32 - 2)) % 2 ^ 32 * fsbi.sectorPerCluster) % 2 ^ 64

/- The clusters of the directory from one on: the entry found, with what surrounds it, and
   the new position; none where FAT32_readdir returns NULL. At a negative position i is 0 or
   negative, and the loop starts before the buffer. -/
def readdirFrom (fsbi : SbInfo) (before block : Memory) :
    Nat → Nat → Int → Prog (Option (View × Int) × Int)
  | 0, _, _ => .fault
  | fuel + 1, cluster, position => do
    match ← readSectors (directorySector fsbi cluster) fsbi.sectorPerCluster with
    | none => return (none, position)
    | some reply =>
      let buf := copy reply 0 block 0 (512 * fsbi.sectorPerCluster)
      let v := around before buf
      let i := position.tmod fsbi.bytesPerCluster
      match firstLive v (entriesFrom fsbi i) i with
      | some p => return (some (v, p), position + (p - i) + 32)
      | none =>
        let position := position + 32 * entriesFrom fsbi i
        let next ← DISK1FAT32ReadFATEntry fsbi cluster
        if next < 0x0ffffff7 then readdirFrom fsbi before buf fuel next position
        else return (none, position)

def seekCluster (fsbi : SbInfo) : Nat → Nat → Prog (Option Nat)
  | 0, cluster => return some cluster
  | n + 1, cluster => do
    let next ← DISK1FAT32ReadFATEntry fsbi cluster
    if next > 0x0ffffff7 then return none else seekCluster fsbi n next

/- The rounds of the walk, which counts up to the int j = position / bytes_per_cluster. -/
def walkLength (fsbi : SbInfo) (position : Int) : Nat :=
  (toInt32 (position.tdiv fsbi.bytesPerCluster)).toNat

/- FAT32_readdir up to the call of filler: the name it reports and the new position. -/
def FAT32Readdir (fuel : Nat) (fsbi : SbInfo) (firstCluster : Nat) (position : Int) :
    Prog (Option (List UInt8) × Int) := do
  if fsbi.bytesPerCluster = 0 then .fault
  let before ← alloc
  let block ← alloc
  match ← seekCluster fsbi (walkLength fsbi position) (firstCluster % 2 ^ 32) with
  | none => return (none, position)
  | some cluster =>
    match ← readdirFrom fsbi before block fuel cluster position with
    | (none, position) => return (none, position)
    | (some (v, p), position) =>
      match readdirName fuel v p with
      | none => .fault
      | some name => return (some name, position)

theorem tmod_cluster (fsbi : SbInfo) (position : Nat) :
    (position : Int).tmod fsbi.bytesPerCluster = (position % fsbi.bytesPerCluster : Nat) := rfl

theorem walkLength_eq {fsbi : SbInfo} {position : Nat}
    (near : position / fsbi.bytesPerCluster < 2 ^ 31) :
    walkLength fsbi position = position / fsbi.bytesPerCluster := by
  have quotient : (position : Int).tdiv fsbi.bytesPerCluster =
      (position / fsbi.bytesPerCluster : Nat) := rfl
  rw [walkLength, quotient]
  generalize position / fsbi.bytesPerCluster = links at near
  rw [toInt32, Int.bmod_eq_of_le (by omega) (by omega), Int.toNat_natCast]

end Fat32

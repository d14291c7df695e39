import Q2os.Fat32Directory
import Q2os.Fat32File

/- FAT32_lookup: the comparison of a path component with the entries of a directory. -/
namespace Fat32
open ByteMemory BlockProgram

/-- dest_dentry as path_walk fills it: a component with the 0 behind it. What name holds
    past that 0 is whatever the heap held there. -/
structure Component where
  name : Memory
  nameLength : Nat
  nonempty : 0 < nameLength
  inside : ∀ i < nameLength, name i ≠ 0
  terminated : name nameLength = 0

def Component.text (d : Component) : List UInt8 := slice d.name 0 d.nameLength

def signedChar (c : UInt8) : Int := if c.toNat < 128 then c.toNat else (c.toNat : Int) - 256
def unsignedShort (c : UInt8) : Nat := if c.toNat < 128 then c.toNat else c.toNat + 0xff00

def lookupSlot (v : View) (p : Int) : Bool := ldirAttr v p = attrLongName ∧ ldirOrd v p ≠ 0xe5

/- The characters of the slot at p from x on against those of the name from j on: the new j,
   none for a difference. -/
def compareSlot (v : View) (p : Int) (d : Component) : Nat → Nat → Nat → Option Nat
  | 0, _, j => some j
  | left + 1, x, j =>
    if j > d.nameLength ∧ ldirName v p x = 0xffff then compareSlot v p d left (x + 1) j
    else if j > d.nameLength ∨ ldirName v p x ≠ unsignedShort (d.name j) then none
    else compareSlot v p d left (x + 1) (j + 1)

/- How the while loop over the slots is left: to find_lookup_success, to continue_cmp_fail,
   or to the short name. -/
inductive Compared where
  | found
  | failed
  | short

/- A slot moves j on by 13 or past the name, so nameLength + 1 rounds are never used up. -/
def compareLong (v : View) (d : Component) : Nat → Int → Nat → Compared
  | 0, _, _ => .failed
  | fuel + 1, p, j =>
    if lookupSlot v p then
      match compareSlot v p d 13 0 j with
      | none => .failed
      | some j => if j ≥ d.nameLength then .found else compareLong v d fuel (p - 32) j
    else .short

def isLetter (c : Nat) : Bool := (0x41 ≤ c ∧ c ≤ 0x5a) ∨ (0x61 ≤ c ∧ c ≤ 0x7a)
def isDigit (c : Nat) : Bool := 0x30 ≤ c ∧ c ≤ 0x39

def letterAt (v : View) (p : Int) (flag x : Nat) : Nat :=
  if dirNTRes v p &&& flag ≠ 0 then dirName v p x + 32 else dirName v p x

/- switch(tmpdentry->DIR_Name[x]) of the base name: the new j. -/
def compareBaseChar (v : View) (p : Int) (d : Component) (x j : Nat) : Option Nat :=
  let c := dirName v p x
  if c = 0x20 then
    if ¬ isDirectory v p then
      if d.name j = 0x2e then some j
      else if signedChar (d.name j) = c then some (j + 1) else none
    else if j < d.nameLength ∧ signedChar (d.name j) = c then some (j + 1)
    else if j = d.nameLength then some j else none
  else if isLetter c then
    if j < d.nameLength ∧ signedChar (d.name j) = letterAt v p lowercaseBase x then some (j + 1)
    else none
  else if isDigit c then
    if j < d.nameLength ∧ signedChar (d.name j) = c then some (j + 1) else none
  else some (j + 1)

def compareBase (v : View) (p : Int) (d : Component) : Nat → Nat → Nat → Option Nat
  | 0, _, j => some j
  | left + 1, x, j => (compareBaseChar v p d x j).bind fun j => compareBase v p d left (x + 1) j

/- switch(tmpdentry->DIR_Name[x]) of the extension: whether the character is the same. -/
def compareExtChar (v : View) (p : Int) (d : Component) (x j : Nat) : Bool :=
  let c := dirName v p x
  if isLetter c then signedChar (d.name j) = letterAt v p lowercaseExt x
  else if isDigit c then signedChar (d.name j) = c
  else if c = 0x20 then signedChar (d.name j) = c
  else false

def compareExt (v : View) (p : Int) (d : Component) : Nat → Nat → Nat → Bool
  | 0, _, _ => true
  | left + 1, x, j => compareExtChar v p d x j && compareExt v p d left (x + 1) (j + 1)

def compareShort (v : View) (p : Int) (d : Component) : Bool :=
  match compareBase v p d 8 0 0 with
  | none => false
  | some j => isDirectory v p || compareExt v p d 3 8 (j + 1)

def compareName (v : View) (p : Int) (d : Component) : Bool :=
  match compareLong v d (d.nameLength + 1) (p - 32) 0 with
  | .found => true
  | .failed => false
  | .short => compareShort v p d

def firstNamed (v : View) (d : Component) : Nat → Int → Option Int
  | 0, _ => none
  | left + 1, i =>
    if live v i ∧ compareName v i d then some i else firstNamed v d left (i + 32)

def attrFile : Nat := 1
def attrDir : Nat := 2
def attrDevice : Nat := 4

structure Found where
  inode : IndexNode
  attributes : Nat

def foundAt (v : View) (cluster : Nat) (p : Int) : Found where
  inode := ⟨dirFileSize v p, (dirFstClusHI v p * 2 ^ 16 + dirFstClusLO v p) % 2 ^ 28, cluster,
    (p / 32).toNat⟩
  attributes :=
    if isDirectory v p then attrDir
    else if dirFstClusHI v p / 2 ^ 12 ≠ 0 then attrFile ||| attrDevice
    else attrFile

def lookupFrom (fsbi : SbInfo) (before block : Memory) (d : Component) :
    Nat → Nat → Prog (Option Found)
  | 0, _ => .fault
  | fuel + 1, cluster => do
    match ← readSectors (directorySector fsbi cluster) fsbi.sectorPerCluster with
    | none => return none
    | some reply =>
      let buf := copy reply 0 block 0 (512 * fsbi.sectorPerCluster)
      let v := around before buf
      match firstNamed v d (entriesFrom fsbi 0) 0 with
      | some p => return some (foundAt v cluster p)
      | none =>
        let next ← DISK1FAT32ReadFATEntry fsbi cluster
        if next < 0x0ffffff7 then lookupFrom fsbi before buf d fuel next else return none

def FAT32Lookup (fuel : Nat) (fsbi : SbInfo) (firstCluster : Nat) (d : Component) :
    Prog (Option Found) := do
  let before ← alloc
  let block ← alloc
  lookupFrom fsbi before block d fuel (firstCluster % 2 ^ 32)

end Fat32

import Q2os.Bitmap

/- The 2MB page allocator: the zones and the bitmap that init_memory builds from the E820
   map, alloc_pages and free_pages. A pointer into pages_struct or zones_struct is an index;
   the words behind bits_map are whatever memory holds there. -/
namespace PageAllocator
open Bitmap

def pageSize : Nat := 2 ^ 21
def pageOffset : Nat := 0xffff800000000000

def pgPTableMaped : BitVec 64 := 1 <<< 0
def pgKernelInit : BitVec 64 := 1 <<< 1
def pgKernel : BitVec 64 := 1 <<< 3
def pgShared : BitVec 64 := 1 <<< 4

def zoneDma : Int := 1 <<< 0
def zoneNormal : Int := 1 <<< 1
def zoneUnmaped : Int := 1 <<< 2

structure E820 where
  address : Nat
  length : Nat
  type : Nat

/- zoneStruct is none for the NULL of a page that lies in no zone. -/
structure Page where
  zoneStruct : Option Nat
  phyAddress : Nat
  attr : BitVec 64
  referenceCount : BitVec 64
  age : Nat

structure Zone where
  pagesGroup : Nat
  pagesLength : Nat
  zoneStartAddress : Nat
  zoneEndAddress : Nat
  zoneLength : Nat
  attr : BitVec 64
  pageUsingCount : BitVec 64
  pageFreeCount : BitVec 64
  totalPagesLink : BitVec 64

/-- memory_management_struct and the zone indices. bitsMap reads all memory from bits_map on
in words, of which the bitmap has bitsLength / 8. -/
structure Gmd where
  e820 : Nat → E820
  e820Length : Nat
  bitsMap : Words
  bitsSize : Nat
  bitsLength : Nat
  pages : Nat → Page
  zones : List Zone
  endOfStruct : Nat
  zoneDmaIndex : Nat
  zoneNormalIndex : Nat
  zoneUnmapedIndex : Nat

def setPage (g : Gmd) (i : Nat) (p : Page) : Gmd := { g with pages := Function.update g.pages i p }
def setBits (g : Gmd) (m : Words) : Gmd := { g with bitsMap := m }

/- A store through a zone_struct pointer; through NULL it misses the table. -/
def updateZone (g : Gmd) (z : Option Nat) (f : Zone → Zone) : Gmd :=
  match z with
  | none => g
  | some i => { g with zones := g.zones.modify i f }

def countLinked (z : Zone) : Zone := { z with totalPagesLink := z.totalPagesLink + 1 }
def countUnlinked (z : Zone) : Zone := { z with totalPagesLink := z.totalPagesLink - 1 }

def countUsed (z : Zone) : Zone :=
  { z with pageUsingCount := z.pageUsingCount + 1, pageFreeCount := z.pageFreeCount - 1 }

def countFreed (z : Zone) : Zone :=
  { z with pageUsingCount := z.pageUsingCount - 1, pageFreeCount := z.pageFreeCount + 1 }

def pageInit (g : Gmd) (i : Nat) (flags : BitVec 64) : Gmd :=
  let g := setPage g i { g.pages i with attr := (g.pages i).attr ||| flags }
  let page := g.pages i
  if page.referenceCount = 0 ∨ page.attr &&& pgShared ≠ 0 then
    let g := setPage g i { page with referenceCount := page.referenceCount + 1 }
    updateZone g page.zoneStruct countLinked
  else g

def pageClean (g : Gmd) (i : Nat) : Gmd :=
  let g := setPage g i { g.pages i with referenceCount := (g.pages i).referenceCount - 1 }
  let page := g.pages i
  let g := updateZone g page.zoneStruct countUnlinked
  if page.referenceCount = 0 then
    setPage g i { page with attr := page.attr &&& pgPTableMaped }
  else g

/- init_memory -/

def endsTable (e : E820) : Prop := e.type > 4 ∨ e.length = 0 ∨ e.type < 1

instance (e : E820) : Decidable (endsTable e) := inferInstanceAs (Decidable (_ ∨ _ ∨ _))

/- e820_length, the index of the last entry read: the test looks at the entry behind it. -/
def lastEntry (p : Nat → E820) : Nat → Nat → Nat
  | 0, i => i
  | left + 1, i => if endsTable (p (i + 1)) then i else lastEntry p left (i + 1)

def page2MAlign (a : Nat) : Nat := (a + pageSize - 1) % 2 ^ 64 / pageSize * pageSize
def page4KAlign (a : Nat) : Nat := (a + 4096 - 1) % 2 ^ 64 / 4096 * 4096

def regionStart (e : E820) : Nat := page2MAlign e.address
def regionEnd (e : E820) : Nat := (e.address + e.length) % 2 ^ 64 / pageSize * pageSize

def isZone (e : E820) : Prop := e.type = 1 ∧ ¬ regionEnd e ≤ regionStart e

instance (e : E820) : Decidable (isZone e) := inferInstanceAs (Decidable (_ ∧ _))

def initPages (g : Gmd) (zone start : Nat) : Nat → Gmd
  | 0 => g
  | j + 1 =>
    let g := initPages g zone start j
    let phy := start + pageSize * j
    let g := setPage g (start / pageSize + j) ⟨some zone, phy, 0, 0, 0⟩
    setBits g (flipBit g.bitsMap (phy / pageSize))

def initZone (g : Gmd) (e : E820) : Gmd :=
  if isZone e then
    let start := regionStart e
    let length := (regionEnd e - start) / pageSize
    let z : Zone := ⟨start / pageSize, length, start, regionEnd e, regionEnd e - start, 0, 0,
      BitVec.ofNat 64 length, 0⟩
    initPages { g with zones := g.zones ++ [z] } g.zones.length start length
  else g

/- ZONE_UNMAPED_INDEX: the loop takes 0 for not found yet. -/
def unmapedIndex (zones : List Zone) : Nat :=
  zones.zipIdx.foldl
    (fun found (z, i) => if z.zoneStartAddress ≥ 0x100000000 ∧ found = 0 then i else found) 0

def initBootPages (g : Gmd) : Nat → Gmd
  | 0 => g
  | j + 1 =>
    let g := initBootPages g j
    let g := pageInit g (j + 1) (pgPTableMaped ||| pgKernelInit ||| pgKernel)
    let page := g.pages (j + 1)
    let g := setBits g (setBit g.bitsMap (page.phyAddress / pageSize))
    updateZone g page.zoneStruct countUsed

/-- What init_memory finds: the table at 0x7e00, the end of the kernel and the memory from
bits_map on. -/
structure Machine where
  table : Nat → E820
  startBrk : Nat
  memory : Words

def totalMem (b : Machine) : Nat :=
  let e := b.table (lastEntry b.table 31 0)
  (e.address + e.length) % 2 ^ 64

def bitsSizeOf (b : Machine) : Nat := totalMem b / pageSize
def bitsLengthOf (b : Machine) : Nat := (bitsSizeOf b + 63) / 8 / 8 * 8

/- end_of_struct behind the bitmap, the pages of 40 bytes and the zones of 80 bytes each. -/
def endOfStructOf (b : Machine) (zones : Nat) : Nat :=
  let pagesStruct := page4KAlign (page4KAlign b.startBrk + bitsLengthOf b)
  let zonesStruct := page4KAlign (pagesStruct + (bitsSizeOf b * 40 + 7) / 8 * 8)
  (zonesStruct + (zones * 80 + 7) / 8 * 8 + 8 * 32) % 2 ^ 64 / 8 * 8

def bootPages (endOfStruct : Nat) : Nat :=
  let i := (endOfStruct + 2 ^ 64 - pageOffset) % 2 ^ 64 / pageSize % 2 ^ 32
  if i < 2 ^ 31 then i else 0

def emptyGmd (b : Machine) : Gmd where
  e820 := b.table
  e820Length := lastEntry b.table 31 0
  bitsMap := fun w => if w < bitsLengthOf b / 8 then BitVec.allOnes 64 else b.memory w
  bitsSize := bitsSizeOf b
  bitsLength := bitsLengthOf b
  pages := fun _ => ⟨none, 0, 0, 0, 0⟩
  zones := []
  endOfStruct := 0
  zoneDmaIndex := 0
  zoneNormalIndex := 0
  zoneUnmapedIndex := 0

def initZones (g : Gmd) (p : Nat → E820) : Nat → Gmd
  | 0 => g
  | i + 1 => initZone (initZones g p i) (p i)

def initMemory (b : Machine) : Gmd :=
  let g := initZones (emptyGmd b) b.table (lastEntry b.table 31 0 + 1)
  let g := setPage g 0
    { g.pages 0 with
      zoneStruct := some 0, phyAddress := 0, referenceCount := 1, age := 0,
      attr := pgPTableMaped ||| pgKernelInit ||| pgKernel }
  let g := { g with
    zoneUnmapedIndex := unmapedIndex g.zones, endOfStruct := endOfStructOf b g.zones.length }
  initBootPages g (bootPages g.endOfStruct)

/- alloc_pages -/

/- The loop over k in the word of page j, with left values of k to go. -/
def searchWord (m : Words) (number j : Nat) : Nat → Option Nat
  | 0 => none
  | left + 1 =>
    let k := 64 - (left + 1)
    if window m (j / 64) k number = 0#64 then some (j + k - j % 64)
    else searchWord m number j left

/- The loop over j; each round moves on, so stop - j rounds are enough. -/
def searchZone (m : Words) (number tmp stop : Nat) : Nat → Nat → Option Nat
  | 0, _ => none
  | fuel + 1, j =>
    if j < stop then
      match searchWord m number j (64 - j % 64) with
      | some page => some page
      | none => searchZone m number tmp stop fuel (j + if j % 64 ≠ 0 then tmp else 64)
    else none

def startPage (z : Zone) : Nat := z.zoneStartAddress / pageSize
def endPage (z : Zone) : Nat := z.zoneEndAddress / pageSize

def searchZones (g : Gmd) (number : Nat) : Nat → Nat → Option (Nat × Nat)
  | 0, _ => none
  | left + 1, i =>
    match g.zones[i]? with
    | none => searchZones g number left (i + 1)
    | some z =>
      if z.pageFreeCount.toNat < number then searchZones g number left (i + 1)
      else
        match searchZone g.bitsMap number (64 - startPage z % 64) (endPage z)
          (endPage z - startPage z) (startPage z) with
        | some page => some (i, page)
        | none => searchZones g number left (i + 1)

def takePages (g : Gmd) (zone : Nat) (attr : BitVec 64) (page : Nat) : Nat → Gmd
  | 0 => g
  | l + 1 =>
    let g := takePages g zone attr page l
    let pageptr := g.pages (page + l)
    let g := setBits g (setBit g.bitsMap (pageptr.phyAddress / pageSize))
    let g := updateZone g (some zone) countUsed
    setPage g (page + l) { pageptr with attr := attr }

/- zone_start, zone_end + 1 and the attribute; the page_flags are not used. -/
def zoneRange (g : Gmd) (zoneSelect : Int) : Option (Nat × Nat × BitVec 64) :=
  if zoneSelect = zoneDma then some (0, g.zoneDmaIndex + 1, pgPTableMaped)
  else if zoneSelect = zoneNormal then some (g.zoneDmaIndex, g.zoneNormalIndex + 1, pgPTableMaped)
  else if zoneSelect = zoneUnmaped then some (g.zoneUnmapedIndex, g.zones.length, 0)
  else none

def allocPages (g : Gmd) (zoneSelect number : Int) : Gmd × Option Nat :=
  if number ≥ 64 ∨ number ≤ 0 then (g, none)
  else
    match zoneRange g zoneSelect with
    | none => (g, none)
    | some (first, stop, attr) =>
      match searchZones g number.toNat (stop - first) first with
      | none => (g, none)
      | some (zone, page) => (takePages g zone attr page number.toNat, some page)

def releasePages (g : Gmd) (page : Nat) : Nat → Gmd
  | 0 => g
  | i + 1 =>
    let g := releasePages g page i
    let p := g.pages (page + i)
    let g := setBits g (clearBit g.bitsMap (p.phyAddress / pageSize))
    let g := updateZone g p.zoneStruct countFreed
    setPage g (page + i) { p with attr := 0 }

def freePages (g : Gmd) (page : Option Nat) (number : Int) : Gmd :=
  match page with
  | none => g
  | some page => if number ≥ 64 ∨ number ≤ 0 then g else releasePages g page number.toNat

end PageAllocator

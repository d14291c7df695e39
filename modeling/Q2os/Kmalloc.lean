import Q2os.PageAllocator

/- kmalloc and kfree: sixteen caches of slabs, one 2MB page a slab. The slab structures and
   color maps of the classes from 1KB on are kmalloc blocks themselves, so both functions
   call themselves. -/
namespace Kmalloc
open Bitmap PageAllocator

/- struct Slab and the words that its color_map points to. -/
structure Slab where
  page : Nat
  usingCount : Nat
  freeCount : Nat
  vaddress : Nat
  colorLength : Nat
  colorCount : Nat
  colorMap : Nat
  colors : Words

/-- slab is the memory of the struct Slabs by their address. pool and others are the lists of
the caches: cache_pool, and the slabs behind it in the order they are met. -/
structure Heap where
  g : Gmd
  pool : Nat → Nat
  others : Nat → List Nat
  totalUsing : Nat → Nat
  totalFree : Nat → Nat
  slab : Nat → Slab

def cacheSize (i : Nat) : Nat := 2 ^ (i + 5)

example : (List.range 16).map cacheSize =
    [32, 64, 128, 256, 512, 1024, 2048, 4096, 8192, 16384, 32768, 65536, 131072, 262144,
      524288, 1048576] := by decide

def slabBytes : Nat := 72

def physToVirt (a : Nat) : Nat := a + pageOffset

/- The slabs of a cache, from cache_pool once round. -/
def ring (h : Heap) (i : Nat) : List Nat := h.pool i :: h.others i

def setSlab (h : Heap) (s : Nat) (v : Slab) : Heap := { h with slab := Function.update h.slab s v }

def flipFirst (m : Words) : Nat → Words
  | 0 => m
  | j + 1 => flipBit (flipFirst m j) j

def freshColors (count : Nat) : Words := flipFirst (fun _ => BitVec.allOnes 64) count

def colorLengthOf (count : Nat) : Nat := (count + 63) / 64 * 8

/- The search for a clear bit; full words are skipped. -/
def searchColor (m : Words) (count : Nat) : Nat → Nat → Option Nat
  | 0, _ => none
  | fuel + 1, j =>
    if j < count then
      if m (j / 64) = BitVec.allOnes 64 then searchColor m count fuel (j + 64)
      else if bit m j = false then some j
      else searchColor m count fuel (j + 1)
    else none

def firstFree (h : Heap) (pool : Nat) : List Nat → Nat
  | [] => pool
  | s :: rest => if (h.slab s).freeCount = 0 then firstFree h pool rest else s

def sizeClass (size : Nat) : Nat := ((List.range 16).find? fun i => size ≤ cacheSize i).getD 16

/- kmalloc from the search in color_map on. -/
def takeSlot (h : Heap) (i s : Nat) : Heap × Option Nat :=
  let v := h.slab s
  match searchColor v.colors v.colorCount v.colorCount 0 with
  | none => (h, none)
  | some j =>
    let h := setSlab h s
      { v with
        colors := setBit v.colors j, usingCount := v.usingCount + 1, freeCount := v.freeCount - 1 }
    let h := { h with
      totalFree := Function.update h.totalFree i (h.totalFree i - 1)
      totalUsing := Function.update h.totalUsing i (h.totalUsing i + 1) }
    (h, some (v.vaddress + cacheSize i * j))

/- kmalloc_create for the sizes up to 512: slab and map at the end of the page. -/
def createInPage (h : Heap) (i page : Nat) : Heap × Nat :=
  let size := cacheSize i
  let vaddress := physToVirt (h.g.pages page).phyAddress
  let slab := vaddress + pageSize - (slabBytes + pageSize / size / 8)
  let count := (pageSize - pageSize / size / 8 - slabBytes) / size
  (setSlab h slab
    ⟨page, 0, count, vaddress, colorLengthOf count, count, slab + slabBytes, freshColors count⟩,
    slab)

/- kmalloc_create for the sizes from 1024 on; none stands for a store through NULL. -/
def createOutside (kmalloc : Heap → Nat → Option (Heap × Option Nat)) (h : Heap) (i page : Nat) :
    Option (Heap × Nat) :=
  match kmalloc h slabBytes with
  | some (h, some slab) =>
    let count := pageSize / cacheSize i
    match kmalloc h (colorLengthOf count) with
    | some (h, some map) =>
      some (setSlab h slab
        ⟨page, 0, count, physToVirt (h.g.pages page).phyAddress, colorLengthOf count, count, map,
          freshColors count⟩, slab)
    | _ => none
  | _ => none

def kmallocCreate (kmalloc : Heap → Nat → Option (Heap × Option Nat)) (h : Heap) (i : Nat) :
    Option (Heap × Option Nat) :=
  match allocPages h.g zoneNormal 1 with
  | (_, none) => some (h, none)
  | (g, some page) =>
    let h := { h with g := pageInit g page pgKernel }
    if cacheSize i ≤ 512 then
      let (h, slab) := createInPage h i page
      some (h, some slab)
    else
      match createOutside kmalloc h i page with
      | none => none
      | some (h, slab) => some (h, some slab)

def appendSlab (h : Heap) (i s : Nat) : Heap :=
  { h with
    totalFree := Function.update h.totalFree i (h.totalFree i + (h.slab s).colorCount)
    others := Function.update h.others i (h.others i ++ [s]) }

def kmallocBody (kmalloc : Heap → Nat → Option (Heap × Option Nat)) (h : Heap) (size : Nat) :
    Option (Heap × Option Nat) :=
  if size > 1048576 then some (h, none)
  else
    let i := sizeClass size
    if h.totalFree i ≠ 0 then some (takeSlot h i (firstFree h (h.pool i) (ring h i)))
    else
      match kmallocCreate kmalloc h i with
      | none => none
      | some (h, none) => some (h, none)
      | some (h, some slab) => some (takeSlot (appendSlab h i slab) i slab)

/- The calls that kmalloc makes to itself ask for less than 512 bytes and make none. -/
def kmallocDepth : Nat → Heap → Nat → Option (Heap × Option Nat)
  | 0 => fun _ _ => none
  | d + 1 => kmallocBody (kmallocDepth d)

def kmalloc : Heap → Nat → Option (Heap × Option Nat) := kmallocDepth 2

def findSlab (h : Heap) (base : Nat) : Nat → Nat → Option (Nat × Nat)
  | 0, _ => none
  | left + 1, i =>
    match (ring h i).find? fun s => (h.slab s).vaddress = base with
    | some s => some (i, s)
    | none => findSlab h base left (i + 1)

def releaseSlot (h : Heap) (i s address : Nat) : Heap :=
  let v := h.slab s
  let index := (address - v.vaddress) / cacheSize i
  let h := setSlab h s
    { v with
      colors := flipBit v.colors index, freeCount := v.freeCount + 1,
      usingCount := v.usingCount - 1 }
  { h with
    totalFree := Function.update h.totalFree i (h.totalFree i + 1)
    totalUsing := Function.update h.totalUsing i (h.totalUsing i - 1) }

def unlinkSlab (h : Heap) (i s : Nat) : Heap :=
  { h with
    others := Function.update h.others i ((h.others i).erase s)
    totalFree := Function.update h.totalFree i (h.totalFree i - (h.slab s).colorCount) }

def freeSlabPage (h : Heap) (page : Nat) : Heap :=
  { h with g := freePages (pageClean h.g page) (some page) 1 }

/- What kfree does with a slab that it takes off the list. -/
def dropSlab (kfree : Heap → Nat → Option (Heap × Nat)) (h : Heap) (i s : Nat) : Option Heap :=
  let v := h.slab s
  if cacheSize i ≤ 512 then some (freeSlabPage h v.page)
  else
    match kfree h v.colorMap with
    | none => none
    | some (h, _) =>
      match kfree (freeSlabPage h v.page) s with
      | none => none
      | some (h, _) => some h

def kfreeBody (kfree : Heap → Nat → Option (Heap × Nat)) (h : Heap) (address : Nat) :
    Option (Heap × Nat) :=
  match findSlab h (address / pageSize * pageSize) 16 0 with
  | none => some (h, 0)
  | some (i, s) =>
    let h := releaseSlot h i s address
    if (h.slab s).usingCount = 0 ∧ h.totalFree i ≥ (h.slab s).colorCount * 3 / 2 ∧ h.pool i ≠ s then
      match dropSlab kfree (unlinkSlab h i s) i s with
      | none => none
      | some h => some (h, 1)
    else some (h, 1)

def kfreeDepth : Nat → Heap → Nat → Option (Heap × Nat)
  | 0 => fun _ _ => none
  | d + 1 => kfreeBody (kfreeDepth d)

def kfree : Heap → Nat → Option (Heap × Nat) := kfreeDepth 2

/- slab_init -/

/- The cache i gets its boot slab behind end_of_struct; page and Vaddress come later. -/
def initCache (h : Heap) (i : Nat) : Heap :=
  let s := h.g.endOfStruct
  let map := s + slabBytes + 8 * 10
  let count := pageSize / cacheSize i
  let h := setSlab { h with pool := Function.update h.pool i s } s
    ⟨0, 0, count, 0, colorLengthOf count, count, map, freshColors count⟩
  { h with
    g := { h.g with endOfStruct := (map + colorLengthOf count + 8 * 10) / 8 * 8 }
    totalFree := Function.update h.totalFree i count
    totalUsing := Function.update h.totalUsing i 0 }

def initCaches (h : Heap) : Nat → Heap
  | 0 => h
  | i + 1 => initCache (initCaches h i) i

def bootPage (g : Gmd) (page : Nat) : Gmd :=
  let p := g.pages page
  let g := setBits g (setBit g.bitsMap (p.phyAddress / pageSize))
  let g := updateZone g p.zoneStruct countUsed
  pageInit g page (pgPTableMaped ||| pgKernelInit ||| pgKernel)

def bootRange (g : Gmd) (first : Nat) : Nat → Gmd
  | 0 => g
  | n + 1 => bootPage (bootRange g first n) (first + n)

def poolAddress (endOfStruct i : Nat) : Nat :=
  (endOfStruct + pageSize * i + pageSize - 1) / pageSize * pageSize

def virtToPage (a : Nat) : Nat := (a - pageOffset) / pageSize

def initPools (h : Heap) : Nat → Heap
  | 0 => h
  | i + 1 =>
    let h := initPools h i
    let virtual := poolAddress h.g.endOfStruct i
    let page := virtToPage virtual
    let s := h.pool i
    setSlab { h with g := bootPage h.g page } s
      { h.slab s with page := page, vaddress := virtual }

def emptyHeap (g : Gmd) : Heap :=
  ⟨g, fun _ => 0, fun _ => [], fun _ => 0, fun _ => 0, fun _ => ⟨0, 0, 0, 0, 0, 0, 0, fun _ => 0⟩⟩

def slabInit (g : Gmd) : Heap :=
  let tmpAddress := g.endOfStruct
  let h := initCaches (emptyHeap g) 16
  let first := (tmpAddress - pageOffset + pageSize - 1) / pageSize
  let last := virtToPage h.g.endOfStruct
  let h := { h with g := bootRange h.g first (last + 1 - first) }
  initPools h 16

end Kmalloc

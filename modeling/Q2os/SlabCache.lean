import Q2os.KmallocSafety

/- slab_create, slab_malloc, slab_free and slab_destroy over the kmalloc heap. What the
   constructor and the destructor of a cache do to its objects is their own affair. -/
namespace SlabCache
open Bitmap PageAllocator Kmalloc KmallocSafety

def slabCacheBytes : Nat := 56

/- The heap, with the blocks and pages that the calls on one cache have taken and not given
   back. -/
structure Account where
  heap : Heap
  blocks : List (Nat × Nat)
  pages : List Nat

/- struct Slab_cache: cache_pool, the slabs behind it in the order they are met, and the memory
   of the struct Slabs by their address. -/
structure Cache where
  address : Nat
  size : Nat
  totalUsing : Nat
  totalFree : Nat
  cachePool : Nat
  others : List Nat
  slab : Nat → Slab

def ring (c : Cache) : List Nat := c.cachePool :: c.others

/- kmalloc(size,0); none is the store through NULL that kmalloc_create can end in. -/
def takeBlock (a : Account) (size : Nat) : Option (Account × Option Nat) :=
  (kmalloc a.heap size).map fun r =>
    ({ a with heap := r.1, blocks := withBlock a.blocks size r.2 }, r.2)

/- kfree(address); none where the block is not held. -/
def giveBlock (a : Account) (address : Nat) : Option Account :=
  (a.blocks.find? fun e => e.1 = address).bind fun e =>
    (kfree a.heap address).map fun r => { a with heap := r.1, blocks := a.blocks.erase e }

def takePage (a : Account) : Option (Account × Nat) :=
  match allocPages a.heap.g zoneNormal 1 with
  | (_, none) => none
  | (g, some page) =>
    some ({ a with
      heap := { a.heap with g := pageInit g page pgKernel }, pages := page :: a.pages }, page)

def cleanPage (a : Account) (page : Nat) : Account :=
  { a with heap := { a.heap with g := pageClean a.heap.g page } }

def freePage (a : Account) (page : Nat) : Option Account :=
  if page ∈ a.pages then
    some { a with
      heap := { a.heap with g := freePages a.heap.g (some page) 1 }, pages := a.pages.erase page }
  else none

def sizeofLongAlign (size : Nat) : Nat := (size + 7) / 8 * 8

def makeSlab (a : Account) (usingCount count : Nat) : Option (Account × Option (Nat × Slab)) := do
  match ← takeBlock a slabBytes with
  | (a, none) => return (a, none)
  | (a, some slab) =>
    match takePage a with
    | none =>
      let a ← giveBlock a slab
      return (a, none)
    | some (a, page) =>
      let vaddress := physToVirt (a.heap.g.pages page).phyAddress
      match ← takeBlock a (colorLengthOf count) with
      | (a, none) =>
        -- without a page_clean
        let a ← freePage a page
        let a ← giveBlock a slab
        return (a, none)
      | (a, some map) =>
        return (a, some (slab, ⟨page, usingCount, count, vaddress, colorLengthOf count, count, map,
          fun _ => 0⟩))

/- The first slab gets the number of its objects as using_count and as free_count. -/
def slabCreate (a : Account) (size : Nat) : Option (Account × Option Cache) := do
  match ← takeBlock a slabCacheBytes with
  | (a, none) => return (a, none)
  | (a, some address) =>
    let size := sizeofLongAlign size
    let count := pageSize / size
    match ← makeSlab a count count with
    | (a, none) =>
      let a ← giveBlock a address
      return (a, none)
    | (a, some (slab, v)) => return (a, some ⟨address, size, 0, count, slab, [], fun _ => v⟩)

/- kfree(color_map), page_clean, free_pages and kfree of the struct Slab at s. -/
def releaseSlab (a : Account) (s : Nat) (v : Slab) : Option Account := do
  let a ← giveBlock a v.colorMap
  let a ← freePage (cleanPage a v.page) v.page
  giveBlock a s

def linkSlab (c : Cache) (s : Nat) (v : Slab) : Cache :=
  { c with
    others := s :: c.others
    slab := Function.update c.slab s v
    totalFree := c.totalFree + v.colorCount }

def takeObject (c : Cache) (s j : Nat) : Cache × Nat :=
  let v := c.slab s
  ({ c with
    slab := Function.update c.slab s
      { v with
        colors := setBit v.colors j, usingCount := v.usingCount + 1, freeCount := v.freeCount - 1 }
    totalUsing := c.totalUsing + 1
    totalFree := c.totalFree - 1 }, v.vaddress + c.size * j)

def slabMalloc (a : Account) (c : Cache) : Option (Account × Cache × Option Nat) :=
  if c.totalFree = 0 then do
    match ← makeSlab a 0 (pageSize / c.size) with
    | (a, none) => return (a, c, none)
    | (a, some (s, v)) =>
      let c := linkSlab c s v
      match (List.range v.colorCount).find? fun j => bit v.colors j = false with
      | some j => return (a, (takeObject c s j).1, some (takeObject c s j).2)
      | none =>
        let a ← releaseSlab a s v
        return (a, { c with others := c.others.erase s }, none)
  else
    match (ring c).find? fun s => (c.slab s).freeCount ≠ 0 with
    | none => some (a, c, none)
    | some s =>
      match searchColor (c.slab s).colors (c.slab s).colorCount (c.slab s).colorCount 0 with
      | some j => some (a, (takeObject c s j).1, some (takeObject c s j).2)
      -- the loop only leaves cache_pool when nothing is found
      | none => if s = c.cachePool then some (a, c, none) else none

def giveObject (c : Cache) (s address : Nat) : Cache :=
  let v := c.slab s
  let index := (address - v.vaddress) / c.size
  { c with
    slab := Function.update c.slab s
      { v with
        colors := flipBit v.colors index, freeCount := v.freeCount + 1,
        usingCount := v.usingCount - 1 }
    totalUsing := c.totalUsing - 1
    totalFree := c.totalFree + 1 }

/- list_del of a slab, which leaves cache_pool as it is, and total_free. -/
def unlinkSlab (c : Cache) (s : Nat) : Cache :=
  { c with
    others := c.others.erase s
    totalFree := c.totalFree - (c.slab s).colorCount }

def holds (v : Slab) (address : Nat) : Bool :=
  v.vaddress ≤ address ∧ address < v.vaddress + pageSize

def slabFree (a : Account) (c : Cache) (address : Nat) : Option (Account × Cache × Nat) :=
  match (ring c).find? fun s => holds (c.slab s) address with
  | none => some (a, c, 0)
  | some s =>
    let c := giveObject c s address
    let v := c.slab s
    if v.usingCount = 0 ∧ c.totalFree ≥ v.colorCount * 3 / 2 then
      (releaseSlab a s v).map fun a => (a, unlinkSlab c s, 1)
    else some (a, c, 1)

/- The loop takes slabs off the ring from cache_pool on; the last one is freed behind it. -/
def destroySlabs (c : Cache) : List Nat → Account → Option Account
  | [], a => some a
  | s :: rest, a => (releaseSlab a s (c.slab s)).bind (destroySlabs c rest)

def slabDestroy (a : Account) (c : Cache) : Option (Account × Nat) :=
  if c.totalUsing ≠ 0 then some (a, 0)
  else do
    let a ← destroySlabs c (ring c) a
    let a ← giveBlock a c.address
    return (a, 1)

end SlabCache

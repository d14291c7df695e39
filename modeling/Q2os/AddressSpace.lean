import Q2os.SlabCache
import Q2os.TableTree

/- The address space of a process: do_brk and sys_brk, the page that do_execve maps, copy_mm
   of do_fork, and exit_mm and the end of sys_wait4. -/
namespace AddressSpace
open PageAllocator Kmalloc SlabCache TableTree

def codeStart : Nat := 0x800000
def brkStart : Nat := 0xc00000

def pageUserDir : Nat := 0x7
def pageUserPage : Nat := 0x87

def mmBytes : Nat := 96
def stackSize : Nat := 32768

def minusENOMEM : Nat := 2 ^ 64 - 49

def userEnd : Nat := 2 ^ 47

def pfVfork : BitVec 64 := 1 <<< 2

/- The heap and the pages with what is held, the words of physical memory, and the pgd of
   init_task. -/
structure Kernel where
  account : Account
  memory : Words
  initPgd : Nat

/- struct mm_struct at its address; the bounds of code, data, bss and stack are left out. -/
structure Mm where
  address : Nat
  pgd : Nat
  startBrk : Nat
  endBrk : Nat

structure Task where
  address : Nat
  flags : BitVec 64
  mm : Mm

def gdtIndex (v : Nat) : Nat := v / 2 ^ 39 % 512
def index1G (v : Nat) : Nat := v / 2 ^ 30 % 512
def index2M (v : Nat) : Nat := v / 2 ^ 21 % 512

def pathOf (v : Nat) : List Nat := [gdtIndex v, index1G v, index2M v]

/-- The physical address of the page that the tables map for a user address. -/
def mapping (memory : Words) (pgd v : Nat) : Option Nat :=
  if v < userEnd then walk memory (pathOf v) (base pgd) else none

def clearWords (memory : Words) (a n : Nat) : Words :=
  fun x => if a ≤ x ∧ x < a + 8 * n then 0 else memory x

def copyWords (memory : Words) (source target n : Nat) : Words :=
  fun x => if target ≤ x ∧ x < target + n then memory (source + (x - target)) else memory x

/- kmalloc(PAGE_4K_SIZE,0) by its physical address; none is the store through NULL behind it. -/
def takeTable (k : Kernel) : Option (Kernel × Nat) :=
  match takeBlock k.account tableBytes with
  | some (a, some virtual) => some ({ k with account := a }, virtual - pageOffset)
  | _ => none

def linkTable (k : Kernel) (tmp : Nat) : Option Kernel :=
  (takeTable k).map fun r =>
    { r.1 with memory :=
        Function.update (clearWords r.1.memory r.2 512) tmp (r.2 ||| pageUserDir) }

def ensureTable (k : Kernel) (tmp : Nat) : Option Kernel :=
  if k.memory tmp = 0 then linkTable k tmp else some k

def allocPage (a : Account) : Option (Account × Nat) :=
  match allocPages a.heap.g zoneNormal 1 with
  | (_, none) => none
  | (g, some page) => some ({ a with heap := { a.heap with g := g }, pages := page :: a.pages }, page)

def linkPage (k : Kernel) (tmp : Nat) : Option (Kernel × Nat) :=
  (allocPage k.account).map fun r =>
    let phyAddress := (r.1.heap.g.pages r.2).phyAddress
    ({ k with account := r.1, memory := Function.update k.memory tmp (phyAddress ||| pageUserPage) },
      phyAddress)

def slotOf (entry index : Nat) : Nat := slot (base entry) index

/- The three steps of do_execve and do_brk for one address; false where alloc_pages gives
   NULL. -/
def mapPage (k : Kernel) (pgd v : Nat) : Option (Kernel × Bool) := do
  let tmp := slotOf pgd (gdtIndex v)
  let k ← ensureTable k tmp
  let tmp := slotOf (k.memory tmp) (index1G v)
  let k ← ensureTable k tmp
  let tmp := slotOf (k.memory tmp) (index2M v)
  if k.memory tmp = 0 then
    match linkPage k tmp with
    | none => return (k, false)
    | some (k, _) => return (k, true)
  else return (k, true)

/- The loop of do_brk over n pages from i on; the result is i, or -ENOMEM. Beyond the user half
   the tables are those of the kernel, which are not followed. -/
def brkPages (k : Kernel) (pgd : Nat) : Nat → Nat → Option (Kernel × Nat)
  | 0, i => some (k, i)
  | n + 1, i =>
    if i < userEnd then do
      match ← mapPage k pgd i with
      | (k, false) => return (k, minusENOMEM)
      | (k, true) => brkPages k pgd n (i + pageSize)
    else none

/- addr + len does not go past the 64 bits where sys_brk calls it. -/
def doBrk (k : Kernel) (pgd addr len : Nat) : Option (Kernel × Nat) :=
  brkPages k pgd ((len + pageSize - 1) / pageSize) addr

def sysBrk (k : Kernel) (mm : Mm) (brk : Nat) : Option (Kernel × Mm × Nat) :=
  let newBrk := page2MAlign brk
  if newBrk = 0 then some (k, mm, mm.startBrk)
  else if newBrk < mm.endBrk then some (k, mm, 0)
  else (doBrk k mm.pgd mm.endBrk (newBrk - mm.endBrk)).map fun r =>
    (r.1, { mm with endBrk := r.2 }, r.2)

def copyKernelSpace (k : Kernel) (pgd : Nat) : Kernel :=
  { k with memory := copyWords k.memory (k.initPgd + 8 * 256) (pgd + 8 * 256) 2048 }

def clearUserSpace (k : Kernel) (pgd : Nat) : Kernel :=
  { k with memory := clearWords k.memory pgd 256 }

def takeMm (k : Kernel) : Option (Kernel × Nat) :=
  match takeBlock k.account mmBytes with
  | some (a, some address) => some ({ k with account := a }, address)
  | _ => none

def execSpace (k : Kernel) (t : Task) : Option (Kernel × Mm) :=
  if t.flags &&& pfVfork ≠ 0 then do
    let (k, address) ← takeMm k
    let (k, pgd) ← takeTable k
    return (copyKernelSpace (clearUserSpace k pgd) pgd, ⟨address, pgd, 0, 0⟩)
  else some (k, t.mm)

/- do_execve where the file opens: image is what the page of the code holds in the end. -/
def doExecve (k : Kernel) (t : Task) (image : Words) : Option (Kernel × Task) := do
  let (k, mm) ← execSpace k t
  match ← mapPage k mm.pgd codeStart with
  | (_, false) => none
  | (k, true) =>
    let page ← mapping k.memory mm.pgd codeStart
    let memory : Words := fun x =>
      if page ≤ x ∧ x < page + pageSize then image (x - page) else k.memory x
    return ({ k with memory := memory },
      { t with
        flags := t.flags &&& ~~~pfVfork
        mm := { mm with startBrk := brkStart, endBrk := brkStart } })

def copyPage (k : Kernel) (pgd v target : Nat) : Option Kernel :=
  (mapping k.memory pgd v).map fun source =>
    { k with memory := copyWords k.memory source target pageSize }

/- The slot of an address below a pgd, without a test on the way. -/
def slotAt (memory : Words) (pgd v : Nat) : Nat :=
  let tmp := slotOf pgd (gdtIndex v)
  let tmp := slotOf (memory tmp) (index1G v)
  slotOf (memory tmp) (index2M v)

def copyMm (k : Kernel) (current : Mm) : Option (Kernel × Mm) := do
  let (k, address) ← takeMm k
  let (k, pgd) ← takeTable k
  let k := clearUserSpace (copyKernelSpace k pgd) pgd
  let tmp := slotOf pgd (gdtIndex codeStart)
  let k ← linkTable k tmp
  let tmp := slotOf (k.memory tmp) (index1G codeStart)
  let k ← linkTable k tmp
  let tmp := slotOf (k.memory tmp) (index2M codeStart)
  let (k, page) ← linkPage k tmp
  let k ← copyPage k current.pgd codeStart page
  let newmm := { current with address := address, pgd := pgd }
  if current.endBrk ≠ current.startBrk then do
    let (k, page) ← linkPage k (slotAt k.memory pgd brkStart)
    let k ← copyPage k current.pgd brkStart page
    return (k, newmm)
  else return (k, newmm)

def doFork (k : Kernel) (current : Task) (cloneVm : Bool) : Option (Kernel × Option Task) := do
  match ← takeBlock k.account stackSize with
  | (a, none) => return ({ k with account := a }, none)
  | (a, some address) =>
    let k := { k with account := a }
    if cloneVm then
      return (k, some { current with address := address, flags := current.flags ||| pfVfork })
    else
      let (k, mm) ← copyMm k current.mm
      return (k, some { current with address := address, mm := mm })

def giveInside (a : Account) (address : Nat) : Option Account :=
  (a.blocks.find? fun e => e.1 ≤ address ∧ address < e.1 + e.2).bind fun e =>
    (kfree a.heap address).map fun r => { a with heap := r.1, blocks := a.blocks.erase e }

/- What exit_mm does where the pgd is not NULL: one walk to the address of the code. -/
def exitTables (k : Kernel) (mm : Mm) : Option Account := do
  let tmp4 := slotOf mm.pgd (gdtIndex codeStart)
  let tmp3 := slotOf (k.memory tmp4) (index1G codeStart)
  let tmp2 := slotOf (k.memory tmp3) (index2M codeStart)
  let a ← freePage k.account (k.memory tmp2 / pageSize)
  let a ← giveInside a (physToVirt (k.memory tmp3))
  let a ← giveInside a (physToVirt (k.memory tmp4))
  giveInside a (physToVirt mm.pgd)

def exitMm (k : Kernel) (t : Task) : Option Account :=
  if t.flags &&& pfVfork ≠ 0 then some k.account
  else (if t.mm.pgd ≠ 0 then exitTables k t.mm else some k.account).bind fun a =>
    giveInside a t.mm.address

def waitChild (k : Kernel) (child : Task) : Option Kernel := do
  let a ← exitMm k child
  let a ← giveInside a child.address
  return { k with account := a }

end AddressSpace

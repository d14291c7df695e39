import Q2os.CleanRuns
import Q2os.PageUse
import Q2os.SpaceSupply

/- What kmalloc does when pages run out: where it returns at all, and what it leaves behind when
   it returns NULL. -/
namespace KmallocFailure
open Bitmap PageAllocator PageRuns Kmalloc KmallocPages HeapInvariant KmallocSlots KmallocSlabs
  KmallocSafety PageUse SlabInit BootPages SlabCache CleanRuns Run AddressSpace

def supplyOf (z : Zone) : Nat × Nat × BitVec 64 :=
  (z.zoneStartAddress, z.zoneEndAddress, z.pageFreeCount)

structure SameSupply (g g' : Gmd) : Prop where
  bits : g'.bitsMap = g.bitsMap
  zones : g'.zones.map supplyOf = g.zones.map supplyOf
  phys : ∀ p, (g'.pages p).phyAddress = (g.pages p).phyAddress
  range : zoneRange g' zoneNormal = zoneRange g zoneNormal

section supply
variable {g g' : Gmd}

theorem zone_range_update (g : Gmd) (z : Option Nat) (f : Zone → Zone) :
    zoneRange (updateZone g z f) zoneNormal = zoneRange g zoneNormal := by
  cases z <;> rfl

theorem page_init_supply (g : Gmd) (i : Nat) (flags : BitVec 64) :
    SameSupply g (pageInit g i flags) := by
  have zones : (pageInit g i flags).zones.map supplyOf = g.zones.map supplyOf := by
    unfold pageInit
    dsimp only
    split
    · exact update_zone_map _ _ fun _ => rfl
    · rfl
  have range : zoneRange (pageInit g i flags) zoneNormal = zoneRange g zoneNormal := by
    unfold pageInit
    dsimp only
    split
    · exact zone_range_update _ _ _
    · rfl
  exact ⟨page_init_bits g i flags, zones, (page_init_layout g i flags).phys, range⟩

theorem search_zones_supply (same : SameSupply g g') (number left i : Nat) :
    searchZones g' number left i = searchZones g number left i := by
  induction left generalizing i with
  | zero => rfl
  | succ left ih =>
    have entry := congrArg (fun l : List (Nat × Nat × BitVec 64) => l[i]?) same.zones
    simp only [List.getElem?_map] at entry
    unfold searchZones
    rw [same.bits]
    cases before : g.zones[i]? with
    | none =>
      cases after : g'.zones[i]? with
      | none => exact ih (i + 1)
      | some z => simp [before, after] at entry
    | some z =>
      cases after : g'.zones[i]? with
      | none => simp [before, after] at entry
      | some z' =>
        simp only [before, after, Option.map_some, Option.some.injEq, supplyOf,
          Prod.mk.injEq] at entry
        simp only [startPage, endPage, entry.1, entry.2.1, entry.2.2, ih (i + 1)]

def supplyUsed (s : Nat × Nat × BitVec 64) : Nat × Nat × BitVec 64 := (s.1, s.2.1, s.2.2 - 1)

theorem take_page_supply (same : SameSupply g g') (zone : Nat) (attr : BitVec 64) (page : Nat) :
    SameSupply (takePages g zone attr page 1) (takePages g' zone attr page 1) := by
  have used : ∀ z, supplyOf (countUsed z) = supplyUsed (supplyOf z) := fun _ => rfl
  have zones : (g'.zones.modify zone countUsed).map supplyOf =
      (g.zones.modify zone countUsed).map supplyOf := by
    rw [map_modify _ zone used, map_modify _ zone used, same.zones]
  refine ⟨?_, zones, fun p => ?_, same.range⟩
  · show setBit g'.bitsMap ((g'.pages page).phyAddress / pageSize) =
      setBit g.bitsMap ((g.pages page).phyAddress / pageSize)
    rw [same.bits, same.phys]
  · rw [(take_pages_layout g' zone attr page 1).phys, (take_pages_layout g zone attr page 1).phys]
    exact same.phys p

theorem alloc_supply (same : SameSupply g g') :
    (allocPages g' zoneNormal 1).2 = (allocPages g zoneNormal 1).2 ∧
      SameSupply (allocPages g zoneNormal 1).1 (allocPages g' zoneNormal 1).1 := by
  have valid : ¬ ((1 : Int) ≥ 64 ∨ (1 : Int) ≤ 0) := by decide
  unfold allocPages
  rw [if_neg valid, if_neg valid, same.range]
  cases zoneRange g zoneNormal with
  | none => exact ⟨rfl, same⟩
  | some r =>
    obtain ⟨first, stop, attr⟩ := r
    dsimp only
    rw [search_zones_supply same]
    cases searchZones g (Int.toNat 1) (stop - first) first with
    | none => exact ⟨rfl, same⟩
    | some found => exact ⟨rfl, take_page_supply same found.1 attr found.2⟩

theorem pages_left_supply (same : SameSupply g g') (n : Nat) : PagesLeft g' n ↔ PagesLeft g n := by
  induction n generalizing g g' with
  | zero => exact Iff.rfl
  | succ n ih =>
    obtain ⟨found, after⟩ := alloc_supply same
    exact and_congr (by rw [found]) (ih after)

theorem pages_left_taken {page : Nat} (requested : allocPages g zoneNormal 1 = (g', some page))
    (flags : BitVec 64) (n : Nat) : PagesLeft (pageInit g' page flags) n ↔ PagesLeft g (1 + n) := by
  rw [pages_left_supply (page_init_supply g' page flags), Nat.add_comm, PagesLeft, requested]
  exact (and_iff_right rfl).symm

theorem pages_left_some {page : Nat} (requested : allocPages g zoneNormal 1 = (g', some page)) :
    PagesLeft g 1 := by
  rw [PagesLeft, requested]
  exact ⟨rfl, trivial⟩

theorem pages_left_le {n k : Nat} (left : PagesLeft g (n + k)) : PagesLeft g n := by
  induction k with
  | zero => exact left
  | succ k ih => exact ih (pages_left_less left)

theorem pages_left_none (requested : allocPages g zoneNormal 1 = (g', none)) (n : Nat) :
    ¬ PagesLeft g (1 + n) := by
  rw [Nat.add_comm, PagesLeft, requested]
  exact fun left => by cases left.1

end supply

def slotsInPage (i : Nat) : Nat := (pageSize - pageSize / cacheSize i / 8 - slabBytes) / cacheSize i

def pagesFor (h : Heap) (i : Nat) : Nat := if h.totalFree i = 0 then 1 else 0

/-- A call for a size of cache i, of 512 bytes at most, gave a block. -/
structure GivesSlot (h h' : Heap) (i : Nat) : Prop where
  here : h'.totalFree i = (if h.totalFree i = 0 then slotsInPage i else h.totalFree i) - 1
  away : ∀ k, k ≠ i → h'.totalFree k = h.totalFree k
  pages : ∀ n, PagesLeft h'.g n ↔ PagesLeft h.g (pagesFor h i + n)

variable {boot : Nat → Prop} {pending : List Nat} {extra : List (Nat × Nat)} {h : Heap}

theorem small_call_new {g : Gmd} {size page : Nat} (inv : Inv boot pending extra h)
    (small : size ≤ 512) (full : h.totalFree (sizeClass size) = 0)
    (requested : allocPages h.g zoneNormal 1 = (g, some page)) :
    ∃ h' address, kmalloc h size = some (h', some address) ∧ GivesSlot h h' (sizeClass size) := by
  have inPage := small_size_class small
  have held := request_page_inv inv requested pgKernel
  have made := create_in_page_inv held inPage
  generalize class_eq : sizeClass size = i at *
  have listed : (createInPage { h with g := pageInit g page pgKernel } i page).2 ∈
      ring (appendSlab (createInPage { h with g := pageInit g page pgKernel } i page).1 i
        (createInPage { h with g := pageInit g page pgKernel } i page).2) i :=
    mem_ring_append.mpr (Or.inr ⟨rfl, rfl⟩)
  obtain ⟨h', address, taken, slot⟩ := take_slot_takes (made.slab_ok i (by omega) _ listed)
    (slab_append_new ▸ in_page_positive inPage)
  refine ⟨h', address, ?_, ?_, fun k other => ?_, fun n => ?_⟩
  · unfold kmalloc kmallocDepth kmallocBody kmallocCreate
    rw [if_neg (by omega)]
    dsimp only
    rw [class_eq, if_neg (not_not_intro full), requested]
    dsimp only
    rw [if_pos (small_class.mpr inPage)]
    exact congrArg some taken
  · have count : ((createInPage { h with g := pageInit g page pgKernel } i page).1.slab
        (createInPage { h with g := pageInit g page pgKernel } i page).2).colorCount =
        slotsInPage i := by
      simp only [createInPage, setSlab, Function.update_self, slotsInPage]
    rw [slot.here, if_pos full]
    refine congrArg (· - 1) ((Function.update_self ..).trans ?_)
    rw [count]
    exact (congrArg (· + slotsInPage i) full).trans (Nat.zero_add _)
  · exact (slot.away k other).trans (Function.update_of_ne other ..)
  · rw [slot.g, pagesFor, if_pos full]
    exact pages_left_taken requested pgKernel n

/-- A call for 512 bytes at most returns: a block where its cache or the pages have one, else
    NULL. -/
theorem small_call {size : Nat} (inv : Inv boot pending extra h) (small : size ≤ 512) :
    (kmalloc h size = some (h, none) ∧ ¬ PagesLeft h.g (pagesFor h (sizeClass size))) ∨
      ∃ h' address, kmalloc h size = some (h', some address) ∧ GivesSlot h h' (sizeClass size) := by
  by_cases full : h.totalFree (sizeClass size) = 0
  · cases requested : allocPages h.g zoneNormal 1 with
    | mk g page =>
      cases page with
      | some page => exact Or.inr (small_call_new inv small full requested)
      | none =>
        refine Or.inl ⟨?_, ?_⟩
        · unfold kmalloc kmallocDepth kmallocBody kmallocCreate
          rw [if_neg (by omega)]
          dsimp only
          rw [if_neg (not_not_intro full), requested]
        · rw [pagesFor, if_pos full]
          exact pages_left_none requested 0
  · obtain ⟨h', address, call, slot⟩ := kmalloc_slot inv (by omega) full
    refine Or.inr ⟨h', address, call, ?_, slot.away, fun n => ?_⟩
    · rw [slot.here, if_neg full]
    · rw [slot.g, pagesFor, if_neg full, Nat.zero_add]

theorem small_call_iff {size : Nat} (inv : Inv boot pending extra h) (small : size ≤ 512) :
    (∃ h' address, kmalloc h size = some (h', some address)) ↔
      PagesLeft h.g (pagesFor h (sizeClass size)) := by
  rcases small_call inv small with ⟨null, lacking⟩ | ⟨h', address, call, slot⟩
  · refine iff_of_false ?_ lacking
    rintro ⟨h', address, call⟩
    rw [null] at call
    cases call
  · exact iff_of_true ⟨h', address, call⟩ ((slot.pages 0).mp trivial)

def mapClass (i : Nat) : Nat := sizeClass (colorLengthOf (pageSize / cacheSize i))

def structClass : Nat := sizeClass slabBytes

/- The page that a color map costs behind its struct Slab, which may have taken the last slot of
   their common cache. -/
def pagesForMap (h : Heap) (i : Nat) : Nat :=
  if mapClass i = structClass then if h.totalFree structClass = 1 then 1 else 0
  else pagesFor h (mapClass i)

def pagesNeeded (h : Heap) (i : Nat) : Nat := 1 + (pagesFor h structClass + pagesForMap h i)

/-- The heap and the pages have what a call for this size asks for, or not even the page it asks
    for first. -/
def Supplied (h : Heap) (size : Nat) : Prop :=
  1048576 < size ∨ h.totalFree (sizeClass size) ≠ 0 ∨ sizeClass size < 5 ∨ ¬ PagesLeft h.g 1 ∨
    PagesLeft h.g (pagesNeeded h (sizeClass size))

theorem map_pages_left {h' : Heap} (slot : GivesSlot h h' structClass) (i : Nat) :
    pagesFor h' (mapClass i) = pagesForMap h i := by
  unfold pagesForMap
  by_cases same : mapClass i = structClass
  · have many : slotsInPage structClass - 1 ≠ 0 := by decide
    rw [if_pos same, same, pagesFor, slot.here]
    by_cases full : h.totalFree structClass = 0
    · simp [full, many]
    · have last : h.totalFree structClass - 1 = 0 ↔ h.totalFree structClass = 1 := by omega
      simp [full, last]
  · rw [if_neg same, pagesFor, pagesFor, slot.away _ same]

/-- kmalloc_create stores through no NULL exactly if the pages suffice for the struct Slab and the
    color map. -/
theorem outside_returns_iff {i page : Nat} (inv : Inv boot (page :: pending) extra h)
    (large : 5 ≤ i) :
    (∃ r, createOutside (kmallocDepth 1) h i page = some r) ↔
      PagesLeft h.g (pagesFor h structClass + pagesForMap h i) := by
  have nested : ∀ h size, size ≤ 512 → kmallocDepth 1 h size = kmalloc h size :=
    fun _ _ small => kmalloc_small small
  have fits : slabBytes ≤ 512 := by decide
  have short := color_length_small large (Nat.div_mul_le_self pageSize (cacheSize i))
  unfold createOutside
  rw [nested _ _ fits]
  rcases small_call inv fits with ⟨null, lacking⟩ | ⟨h₁, slab, first, slot⟩
  · refine iff_of_false ?_ fun left => lacking (pages_left_le left)
    rintro ⟨r, made⟩
    rw [null] at made
    cases made
  · have inv₁ := (kmalloc_spec _ _ _ _ _ _ _ inv first).1
    have second := small_call_iff inv₁ short
    rw [slot.pages] at second
    rw [← map_pages_left slot, mapClass]
    refine Iff.trans ?_ second
    rw [first]
    dsimp only
    rw [nested _ _ short]
    constructor
    · rintro ⟨r, made⟩
      split at made
      · next h₂ map given => exact ⟨h₂, map, given⟩
      · cases made
    · rintro ⟨h₂, map, given⟩
      rw [given]
      exact ⟨_, rfl⟩

/-- Which calls of kmalloc return. -/
theorem kmalloc_returns_iff (inv : Inv boot pending extra h) (size : Nat) :
    (∃ r, kmalloc h size = some r) ↔ Supplied h size := by
  unfold Supplied kmalloc kmallocDepth kmallocBody kmallocCreate
  by_cases long : size > 1048576
  · rw [if_pos long]
    exact iff_of_true ⟨_, rfl⟩ (Or.inl long)
  · rw [if_neg long]
    dsimp only
    by_cases free : h.totalFree (sizeClass size) ≠ 0
    · rw [if_pos free]
      exact iff_of_true ⟨_, rfl⟩ (Or.inr (Or.inl free))
    · rw [if_neg free]
      cases requested : allocPages h.g zoneNormal 1 with
      | mk g page =>
        cases page with
        | none =>
          exact iff_of_true ⟨_, rfl⟩
            (Or.inr (Or.inr (Or.inr (Or.inl (pages_left_none requested 0)))))
        | some page =>
          dsimp only
          by_cases inPage : cacheSize (sizeClass size) ≤ 512
          · rw [if_pos inPage]
            exact iff_of_true ⟨_, rfl⟩ (Or.inr (Or.inr (Or.inl (small_class.mp inPage))))
          · have large : ¬ sizeClass size < 5 := fun below => inPage (small_class.mpr below)
            have held := request_page_inv inv requested pgKernel
            have outside := outside_returns_iff held (Nat.le_of_not_lt large)
            rw [pages_left_taken requested] at outside
            rw [if_neg inPage]
            have one := pages_left_some requested
            simp only [long, free, large, one, not_true_eq_false, false_or]
            refine Iff.trans ?_ outside
            constructor
            · rintro ⟨r, call⟩
              cases made : createOutside (kmallocDepth 1) { h with g := pageInit g page pgKernel }
                  (sizeClass size) page with
              | none => simp [made] at call
              | some r => exact ⟨r, rfl⟩
            · rintro ⟨r, made⟩
              rw [made]
              exact ⟨_, rfl⟩

theorem null_unchanged {h' : Heap} {size : Nat} (inv : Inv boot pending extra h)
    (call : kmalloc h size = some (h', none)) : h' = h := by
  by_cases long : size > 1048576
  · unfold kmalloc kmallocDepth kmallocBody at call
    rw [if_pos long] at call
    cases call
    rfl
  · have small := Nat.le_of_not_lt long
    by_cases free : h.totalFree (sizeClass size) ≠ 0
    · obtain ⟨h₁, address, given, -⟩ := kmalloc_slot inv small free
      rw [given] at call
      cases call
    · have refused := ((kmalloc_spec _ _ _ _ _ _ _ inv call).2 rfl).resolve_left long
      unfold kmalloc kmallocDepth kmallocBody kmallocCreate at call
      rw [if_neg long] at call
      dsimp only at call
      rw [if_neg free] at call
      cases requested : allocPages h.g zoneNormal 1 with
      | mk g page =>
        rw [requested] at refused
        cases refused
        rw [requested] at call
        cases call
        rfl

/- The pages that are neither the slabs' nor held by a call or a caller. -/
def SetAside (pending : List Nat) (h : Heap) (p : Nat) : Prop :=
  bit h.g.bitsMap p = true ∧ p ∉ pending ∧ ∀ i < 16, ∀ s ∈ ring h i, (h.slab s).page ≠ p

theorem set_aside_known : Known (SetAside pending h) pending h := by
  intro p marked
  by_cases held : p ∈ pending
  · exact Or.inr (Or.inl held)
  · by_cases listed : ∃ i < 16, ∃ s ∈ ring h i, (h.slab s).page = p
    · exact Or.inr (Or.inr listed)
    · exact Or.inl ⟨marked, held, fun i hi s member same => listed ⟨i, hi, s, member, same⟩⟩

theorem set_aside_inv (inv : Inv boot pending extra h) :
    Inv (SetAside pending h) pending extra h := by
  have wider : ∀ p, boot p → SetAside pending h p := fun p set_aside =>
    ⟨(inv.reserved p (Or.inl set_aside)).1, fun held => inv.apart p held set_aside,
      (inv.reserved p (Or.inl set_aside)).2⟩
  have bytes : ∀ a n, BootBytes boot a n → BootBytes (SetAside pending h) a n :=
    fun a n inside x within => ⟨(inside x within).1, wider _ (inside x within).2⟩
  exact { inv with
    reserved := fun p either => either.elim (fun aside => ⟨aside.1, aside.2.2⟩) fun held =>
      inv.reserved p (Or.inr held)
    apart := fun p held aside => aside.2.1 held
    boot_struct := fun i hi => bytes _ _ (inv.boot_struct i hi)
    boot_map := fun i hi => bytes _ _ (inv.boot_map i hi) }

/-- After a call for size bytes: its block is a slot of its own beside the blocks there were, or
    they are unchanged; what it marked in use is the page of a listed slab; the counters agree. -/
structure CleanCall (boot : Nat → Prop) (pending : List Nat) (extra : List (Nat × Nat)) (h : Heap)
    (size : Nat) (h' : Heap) (address : Option Nat) : Prop where
  heap : Inv boot pending (withBlock extra size address) h'
  block : ∀ a, address = some a → ∃ i s j, Occupied h' (a, size) i s j
  null : address = none → metas h' = metas h
  pages : ∀ p, bit h'.g.bitsMap p = true → bit h.g.bitsMap p = true ∨
    ∃ i < 16, ∃ s ∈ ring h' i, (h'.slab s).page = p
  counters : ∀ i < 16, Totals h' i

def FailsCleanly (boot : Nat → Prop) (pending : List Nat) (extra : List (Nat × Nat)) (h : Heap)
    (size : Nat) : Prop :=
  ∃ h' address, kmalloc h size = some (h', address) ∧ CleanCall boot pending extra h size h' address

theorem call_clean {h' : Heap} {size : Nat} {address : Option Nat} (inv : Inv boot pending extra h)
    (call : kmalloc h size = some (h', address)) :
    CleanCall boot pending extra h size h' address := by
  have after := (kmalloc_spec _ _ _ _ _ _ _ inv call).1
  refine ⟨after, fun a given => ?_, fun null => ?_, fun p marked => ?_, after.totals⟩
  · rw [given] at after
    exact after.occupied _ (List.mem_append_left _ List.mem_cons_self)
  · rw [null] at call
    rw [null_unchanged inv call]
  · rcases kmalloc_known _ _ _ _ _ _ _ (set_aside_inv inv) set_aside_known call p marked with
      aside | held | listed
    · exact Or.inl aside.1
    · exact Or.inl (inv.reserved p (Or.inr held)).1
    · exact Or.inr listed

/-- kmalloc fails cleanly exactly where it has no page to begin with, or has all that it asks for:
    a slab for 1024 bytes or more whose struct Slab or color map is refused is stored to through
    NULL. -/
theorem kmalloc_fails_cleanly_iff (inv : Inv boot pending extra h) (size : Nat) :
    FailsCleanly boot pending extra h size ↔ Supplied h size := by
  rw [← kmalloc_returns_iff inv]
  constructor
  · rintro ⟨h', address, call, -⟩
    exact ⟨_, call⟩
  · rintro ⟨⟨h', address⟩, call⟩
    exact ⟨h', address, call, call_clean inv call⟩

theorem empty_cache {size : Nat} (small : size ≤ 1048576) (n : Nat) (s : CleanRuns.System)
    (sound : Sound128 s) (left : s.heap.totalFree (sizeClass size) = n) :
    ∃ es h live, Steps CleanRuns.Step s es { s with heap := h, live := live } ∧
      Sound128 { s with heap := h, live := live } ∧ h.g = s.heap.g ∧
      h.totalFree (sizeClass size) = 0 ∧
      ∀ k, k ≠ sizeClass size → h.totalFree k = s.heap.totalFree k := by
  induction n generalizing s with
  | zero => exact ⟨[], s.heap, s.live, .nil _, sound, rfl, left, fun _ _ => rfl⟩
  | succ n ih =>
    have ready := boot_ready HeapRuns.machine128_bootable
    obtain ⟨h, address, call, slot⟩ := kmalloc_slot sound.inv small (by omega)
    have step : CleanRuns.Step s (.kmalloc size)
        { s with heap := h, live := withBlock s.live size (some address) } := .kmalloc call
    have after := step_sound ready.rooted sound step trivial
    obtain ⟨es, h', live, run, sound', g, empty, away⟩ := ih _ after (by
      show h.totalFree (sizeClass size) = n
      rw [slot.here, left]
      rfl)
    exact ⟨_, h', live, .cons step run, sound', g.trans slot.g, empty,
      fun k other => (away k other).trans (slot.away k other)⟩

/- The page of the slab is the last one and no struct Slab is free. -/
theorem struct_refused {g : Gmd} {page : Nat}
    (requested : allocPages h.g zoneNormal 1 = (g, some page))
    (refused : (allocPages (pageInit g page pgKernel) zoneNormal 1).2 = none)
    (full : h.totalFree structClass = 0) (i : Nat) : ¬ PagesLeft h.g (pagesNeeded h i) := by
  have none_ : allocPages (pageInit g page pgKernel) zoneNormal 1 =
      ((allocPages (pageInit g page pgKernel) zoneNormal 1).1, none) := Prod.ext rfl refused
  unfold pagesNeeded pagesFor
  rw [if_pos full, ← pages_left_taken requested pgKernel]
  exact pages_left_none none_ _

theorem megabyte_lacks {g : Gmd} {page : Nat}
    (requested : allocPages h.g zoneNormal 1 = (g, some page))
    (refused : (allocPages (pageInit g page pgKernel) zoneNormal 1).2 = none)
    (full : h.totalFree structClass = 0) (empty : h.totalFree 15 = 0) : ¬ Supplied h 1048576 := by
  have class15 : sizeClass 1048576 = 15 := by decide
  unfold Supplied
  rw [class15]
  rintro (long | free | small | first | enough)
  · exact absurd long (by decide)
  · exact free empty
  · exact absurd small (by decide)
  · exact first (pages_left_some requested)
  · exact struct_refused requested refused full 15 enough

/- 128MB: 16384 blocks of 128 bytes and two of 1MB, and all pages but one for a caller. -/
theorem struct_slab_lacks : ∃ es, ∃ h : Heap, ∃ live, Steps CleanRuns.Step (start machine128) es
      ⟨{ h with g := onePage }, live, [(17, 46)], []⟩ ∧
    Sound128 ⟨{ h with g := onePage }, live, [(17, 46)], []⟩ ∧ h.totalFree 15 = 0 ∧
    ¬ Supplied { h with g := onePage } 1048576 := by
  have ready := boot_ready HeapRuns.machine128_bootable
  have begun : Sound128 (start machine128) :=
    ⟨ready.inv, ready.charged, fun k member => absurd member List.not_mem_nil⟩
  obtain ⟨es, h₁, live₁, run₁, sound₁, g₁, empty₁, away₁⟩ :=
    @empty_cache 128 (by decide) _ _ begun rfl
  obtain ⟨es', h₂, live₂, run₂, sound₂, g₂, empty₂, away₂⟩ :=
    @empty_cache 1048576 (by decide) _ _ sound₁ rfl
  have boot : h₂.g = bootGmd := g₂.trans g₁
  have step : CleanRuns.Step ⟨h₂, live₂, [], []⟩ (.allocPages zoneNormal 46 0)
      ⟨{ h₂ with g := (allocPages h₂.g zoneNormal 46).1 }, live₂,
        record [] (allocPages h₂.g zoneNormal 46).2 46, []⟩ := .allocPages
  have sound := step_sound ready.rooted sound₂ step (caller_inside h₂ live₂ boot)
  have runs : record [] (allocPages h₂.g zoneNormal 46).2 46 = [(17, 46)] := by
    rw [boot, pages_for_a_caller]
    rfl
  have pages : (allocPages h₂.g zoneNormal 46).1 = onePage := by rw [boot, onePage]
  rw [runs, pages] at step sound
  have class15 : sizeClass 1048576 = 15 := by decide
  have class2 : sizeClass 128 = structClass := by decide
  have struct : h₂.totalFree structClass = 0 := by
    rw [away₂ structClass (by decide), ← class2]
    exact empty₁
  refine ⟨_, h₂, live₂, steps_append (steps_append run₁ run₂) (steps_single step), sound,
    class15 ▸ empty₂, megabyte_lacks ?_ no_page_left struct (class15 ▸ empty₂)⟩
  dsimp only
  exact last_page

/- And one block of 1MB more. -/
theorem struct_slab_refused : ∃ es s, Steps CleanRuns.Step (start machine128) es s ∧
    ¬ FailsCleanly (Reserved (slabInit (initMemory machine128)))
      (s.caches.flatMap Held.pages ++ runPages s.runs) (s.caches.flatMap Held.blocks ++ s.live)
      s.heap 1048576 := by
  obtain ⟨es, h, live, run, sound, _, lacks⟩ := struct_slab_lacks
  refine ⟨es, _, run, ?_⟩
  rintro ⟨h', address, call, -⟩
  exact lacks ((kmalloc_returns_iff sound.inv 1048576).mp ⟨_, call⟩)

/- With the last page left the call stores through NULL; without it the call fails as it should. -/
theorem kmalloc_fails_cleanly_iff_last_page : ∃ es, ∃ h : Heap, ∃ live,
    Steps CleanRuns.Step (start machine128) es ⟨{ h with g := onePage }, live, [(17, 46)], []⟩ ∧
    ¬ FailsCleanly (Reserved (slabInit (initMemory machine128))) (runPages [(17, 46)]) live
      { h with g := onePage } 1048576 ∧
    FailsCleanly (Reserved (slabInit (initMemory machine128))) (runPages [(63, 1), (17, 46)]) live
      { h with g := noPage } 1048576 := by
  have ready := boot_ready HeapRuns.machine128_bootable
  obtain ⟨es, h, live, run, sound, _, lacks⟩ := struct_slab_lacks
  have inside : 63 + (1 : Int).toNat ≤ CleanPages.pageLimit onePage := by decide +kernel
  have last := last_page
  have refused : (allocPages noPage zoneNormal 1).2 = none := by decide +kernel
  have none_left : ¬ PagesLeft noPage 1 := pages_left_none (Prod.ext rfl refused) 0
  generalize onePage = g at run sound lacks inside last ⊢
  generalize noPage = g' at last none_left ⊢
  have step : CleanRuns.Step ⟨{ h with g := g }, live, [(17, 46)], []⟩ (.allocPages zoneNormal 1 0)
      ⟨{ h with g := (allocPages g zoneNormal 1).1 }, live,
        record [(17, 46)] (allocPages g zoneNormal 1).2 1, []⟩ := .allocPages
  have allowed := @returned_allowed ⟨{ h with g := g }, live, [(17, 46)], []⟩ 1 63 0
    sound.inv.pages.extend (by decide) (by rw [last]) inside
  have after := step_sound ready.rooted sound step allowed
  rw [last] at after
  exact ⟨es, h, live, run, mt (kmalloc_fails_cleanly_iff sound.inv 1048576).mp lacks,
    (kmalloc_fails_cleanly_iff after.inv 1048576).mpr
      (Or.inr (Or.inr (Or.inr (Or.inl none_left))))⟩

end KmallocFailure

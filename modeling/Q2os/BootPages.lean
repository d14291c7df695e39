import Q2os.CleanPages
import Q2os.SlabInit

/- The pages after slab_init: those that are free are clean, those of the boot slabs have one
   reference, and all other pages stay in use for good. -/
namespace BootPages
open Bitmap PageAllocator PageRuns Kmalloc KmallocPages HeapInvariant KmallocSlots SlabInit CleanPages

/- A page that was given to page_init once or more since init_memory cleared it, or never. -/
def Once (v : Page) : Prop :=
  v.referenceCount = 0 ∧ v.attr = 0 ∨ v.referenceCount = 1 ∧ v.attr &&& pgShared = 0

structure Initial (g : Gmd) : Prop where
  once : ∀ p, p ≠ 0 → Once (g.pages p)
  free : ∀ p < pageLimit g, p ≠ 0 → bit g.bitsMap p = false →
    (g.pages p).referenceCount = 0 ∧ (g.pages p).attr = 0

structure Inits (g g' : Gmd) (p : Nat) : Prop where
  grows : Grows g g'
  away : ∀ q, q ≠ p → g'.pages q = g.pages q
  here : Once (g.pages p) →
    (g'.pages p).referenceCount = 1 ∧ (g'.pages p).attr &&& pgShared = 0
  marked : Backed g → p < pageLimit g → bit g'.bitsMap p = true

theorem page_init_once {g : Gmd} {i : Nat} {flags : BitVec 64} (apart : flags &&& pgShared = 0)
    (once : Once (g.pages i)) : ((pageInit g i flags).pages i).referenceCount = 1 ∧
      ((pageInit g i flags).pages i).attr &&& pgShared = 0 := by
  rcases once with ⟨none, clear⟩ | ⟨one, alone⟩
  · obtain ⟨count, attr⟩ := page_init_fresh flags none
    refine ⟨count, ?_⟩
    rw [attr, clear]
    simp [apart]
  · have both : ((g.pages i).attr ||| flags) &&& pgShared = 0 := by
      rw [BitVec.and_comm, BitVec.and_or_distrib_left, BitVec.and_comm, alone, BitVec.and_comm, apart]
      rfl
    unfold pageInit
    dsimp only
    rw [if_neg]
    · simp [setPage, one, both]
    · simp [setPage, one, both]

theorem boot_flags : (pgPTableMaped ||| pgKernelInit ||| pgKernel) &&& pgShared = 0 := by decide

theorem boot_page_inits (g : Gmd) (p : Nat) : Inits g (bootPage g p) p := by
  have pages : (updateZone (setBits g (setBit g.bitsMap ((g.pages p).phyAddress / pageSize)))
      (g.pages p).zoneStruct countUsed).pages = g.pages := by
    rw [update_zone_pages]
    rfl
  refine ⟨boot_page_grows g p, fun q other => ?_, fun once => ?_, fun backed small => ?_⟩
  · unfold bootPage
    dsimp only
    rw [page_init_away _ other, pages]
  · unfold bootPage
    dsimp only
    exact page_init_once boot_flags (by rw [pages]; exact once)
  · rw [boot_page_bits]
    exact mark_page backed small

theorem init_boot_page_inits (g : Gmd) (n : Nat) :
    Inits (initBootPages g n) (initBootPages g (n + 1)) (n + 1) := by
  have inited := page_init_grows (initBootPages g n) (n + 1)
    (pgPTableMaped ||| pgKernelInit ||| pgKernel)
  refine ⟨⟨?_, ?_, ?_⟩, fun q other => ?_, fun once => ?_, fun backed small => ?_⟩
  · exact same_layout_trans (same_layout_trans inited.layout (set_bits_layout _ _))
      (update_zone_layout _ _ countUsed (fun _ => rfl))
  · intro j set
    simp only [initBootPages, update_zone_bits, setBits, page_init_bits]
    exact set_bit_kept _ _ _ set
  · simp only [initBootPages, update_zone_end, setBits, page_init_end]
  · simp only [initBootPages, update_zone_pages, setBits]
    exact page_init_away _ other
  · simp only [initBootPages, update_zone_pages, setBits]
    exact page_init_once boot_flags once
  · simp only [initBootPages, update_zone_bits, setBits]
    exact mark_page (grows_backed inited backed) (inited.layout.length ▸ small)

theorem inits_initial {g g' : Gmd} {p : Nat} (inits : Inits g g' p) (backed : Backed g)
    (initial : Initial g) : Initial g' := by
  have length : pageLimit g' = pageLimit g := congrArg (fun n => 64 * (n / 8)) inits.grows.layout.length
  constructor
  · intro q positive
    by_cases here : q = p
    · rw [here]
      exact Or.inr (inits.here (initial.once p (here ▸ positive)))
    · rw [inits.away q here]
      exact initial.once q positive
  · intro q small positive clear
    rw [length] at small
    have other : q ≠ p := by
      intro same
      rw [same, inits.marked backed (same ▸ small)] at clear
      cases clear
    rw [inits.away q other]
    refine initial.free q small positive ?_
    cases before : bit g.bitsMap q with
    | false => rfl
    | true =>
      rw [inits.grows.kept q before] at clear
      cases clear

theorem inits_kept {g g' : Gmd} {p q : Nat} (inits : Inits g g' p) (initial : Initial g)
    (positive : q ≠ 0) (one : (g.pages q).referenceCount = 1) :
    (g'.pages q).referenceCount = 1 := by
  by_cases here : q = p
  · rw [here]
    exact (inits.here (initial.once p (here ▸ positive))).1
  · rw [inits.away q here]
    exact one

theorem init_boot_pages_initial {g : Gmd} (n : Nat) (backed : Backed g) (initial : Initial g) :
    Initial (initBootPages g n) := by
  induction n with
  | zero => exact initial
  | succ n ih =>
    exact inits_initial (init_boot_page_inits g n) (grows_backed (init_boot_pages_grows g n) backed) ih

theorem boot_range_initial {g : Gmd} (first n : Nat) (backed : Backed g) (initial : Initial g) :
    Initial (bootRange g first n) := by
  induction n with
  | zero => exact initial
  | succ n ih =>
    exact inits_initial (boot_page_inits _ _) (grows_backed (boot_range_grows g first n) backed) ih

theorem init_pools_grows (h : Heap) (n : Nat) : Grows h.g (initPools h n).g := by
  induction n with
  | zero => exact grows_refl h.g
  | succ n ih => exact grows_trans ih (boot_page_grows _ _)

theorem init_pools_initial {h : Heap} {n : Nat} (backed : Backed h.g) (initial : Initial h.g)
    (positive : ∀ i < n, poolPage h.g.endOfStruct i ≠ 0) : Initial (initPools h n).g ∧
      ∀ i < n, ((initPools h n).g.pages (poolPage h.g.endOfStruct i)).referenceCount = 1 := by
  induction n with
  | zero => exact ⟨initial, fun i less => absurd less (Nat.not_lt_zero i)⟩
  | succ n ih =>
    obtain ⟨before, inited⟩ := ih fun i less => positive i (by omega)
    have grows := init_pools_grows h n
    have inits := boot_page_inits (initPools h n).g (poolPage h.g.endOfStruct n)
    have same : (initPools h (n + 1)).g = bootPage (initPools h n).g (poolPage h.g.endOfStruct n) := by
      rw [init_pools_succ h n (poolPage h.g.endOfStruct n) (poolAddress h.g.endOfStruct n)
        (by rw [grows.stop]) rfl]
      rfl
    rw [same]
    refine ⟨inits_initial inits (grows_backed grows backed) before, fun i less => ?_⟩
    by_cases last : i = n
    · rw [last]
      exact (inits.here (before.once _ (positive n (by omega)))).1
    · exact inits_kept inits before (positive i less) (inited i (by omega))

/- init_memory -/

theorem empty_initial (b : Machine) (p : Nat) : ((emptyGmd b).pages p).referenceCount = 0 ∧
    ((emptyGmd b).pages p).attr = 0 := ⟨rfl, rfl⟩

theorem init_pages_zero {g : Gmd} {zone start n : Nat}
    (zero : ∀ p, (g.pages p).referenceCount = 0 ∧ (g.pages p).attr = 0) (p : Nat) :
    ((initPages g zone start n).pages p).referenceCount = 0 ∧
      ((initPages g zone start n).pages p).attr = 0 := by
  induction n with
  | zero => exact zero p
  | succ n ih =>
    by_cases here : p = start / pageSize + n
    · subst here
      simp [initPages, setBits, setPage]
    · simp only [initPages, setBits, setPage, Function.update_of_ne here]
      exact ih

theorem init_zones_zero {g : Gmd} {t : Nat → E820} {n : Nat}
    (zero : ∀ p, (g.pages p).referenceCount = 0 ∧ (g.pages p).attr = 0) (p : Nat) :
    ((initZones g t n).pages p).referenceCount = 0 ∧ ((initZones g t n).pages p).attr = 0 := by
  induction n generalizing p with
  | zero => exact zero p
  | succ n ih =>
    unfold initZones initZone
    by_cases zone : isZone (t n)
    · simp only [if_pos zone]
      refine init_pages_zero (fun q => ?_) p
      exact ih q
    · simp only [if_neg zone]
      exact ih p

theorem zones_made_initial (b : Machine) : Initial (zonesMade b) := by
  have zero : ∀ p, p ≠ 0 → ((zonesMade b).pages p).referenceCount = 0 ∧
      ((zonesMade b).pages p).attr = 0 := by
    intro p positive
    simp only [zonesMade, setPage, Function.update_of_ne positive]
    exact init_zones_zero (empty_initial b) p
  exact ⟨fun p positive => Or.inl (zero p positive), fun p _ positive _ => zero p positive⟩

def Placed (g : Gmd) : Prop :=
  ∀ p, (g.pages p).phyAddress / pageSize = p → p = 0 ∨ p < pageLimit g

theorem init_zones_placed {g : Gmd} {t : Nat → E820} {n : Nat} (placed : Placed g)
    (reach : ∀ i < n, isZone (t i) → regionEnd (t i) / pageSize ≤ pageLimit g) :
    Placed (initZones g t n) := by
  have limit : pageLimit (initZones g t n) = pageLimit g :=
    congrArg (fun n => 64 * (n / 8)) (init_zones_length g t n)
  intro p
  rw [limit]
  clear limit
  induction n with
  | zero => exact placed p
  | succ n ih =>
    have before := ih fun i less => reach i (by omega)
    unfold initZones initZone
    by_cases zone : isZone (t n)
    · simp only [if_pos zone]
      rw [init_pages_phys]
      have last := reach n (by omega) zone
      have count : (regionEnd (t n) - regionStart (t n)) / pageSize =
          regionEnd (t n) / pageSize - regionStart (t n) / pageSize := by
        unfold regionEnd regionStart page2MAlign
        rw [← Nat.sub_mul, region_multiple, region_multiple]
        exact Nat.mul_div_cancel _ (by decide)
      split
      · next within =>
        unfold Within at within
        exact fun _ => Or.inr (by omega)
      · exact before
    · simp only [if_neg zone]
      exact before

theorem zones_made_placed {b : Machine} (covered : Covered b) : Placed (zonesMade b) := by
  have empty : Placed (emptyGmd b) := by
    intro p here
    have zero : (0 : Nat) / pageSize = p := here
    rw [Nat.zero_div] at zero
    exact Or.inl zero.symm
  have limit : pageLimit (emptyGmd b) = 64 * (bitsLengthOf b / 8) := rfl
  have zones := init_zones_placed (n := lastEntry b.table 31 0 + 1) (t := b.table) empty fun i less zone => by
    have below := Nat.div_le_div_right (c := pageSize) (covered.zones i (by omega) zone)
    rw [limit]
    unfold bitsLengthOf bitsSizeOf
    omega
  intro p here
  by_cases first : p = 0
  · exact Or.inl first
  · simp only [zonesMade, setPage, Function.update_of_ne first] at here
    exact zones p here

/- slab_init -/

/-- What slab_init makes of the pages. -/
structure BootDone (g : Gmd) (h : Heap) : Prop where
  layout : SameLayout g h.g
  kept : ∀ j, bit g.bitsMap j = true → bit h.g.bitsMap j = true
  initial : Initial h.g
  pools : ∀ i < 16, (h.g.pages (poolPage (structEnd g.endOfStruct 16) i)).referenceCount = 1

theorem backed_moved {g : Gmd} (stop : Nat) (backed : Backed g) :
    Backed { g with endOfStruct := stop } := backed

theorem initial_moved {g : Gmd} (stop : Nat) (initial : Initial g) :
    Initial { g with endOfStruct := stop } :=
  ⟨initial.once, initial.free⟩

theorem slab_init_done {g : Gmd} (backed : Backed g) (initial : Initial g)
    (positive : ∀ i < 16, poolPage (structEnd g.endOfStruct 16) i ≠ 0) :
    BootDone g (slabInit g) := by
  have made := init_caches_made g 16
  unfold slabInit
  dsimp only
  revert made
  generalize initCaches (emptyHeap g) 16 = h
  intro made
  have stop : h.g.endOfStruct = structEnd g.endOfStruct 16 := by rw [made.made]
  have layout : SameLayout g h.g := by
    rw [made.made]
    exact ⟨rfl, fun _ => rfl, rfl⟩
  have bits : h.g.bitsMap = g.bitsMap := by rw [made.made]
  have backed₁ : Backed h.g := by
    rw [made.made]
    exact backed_moved _ backed
  have initial₁ : Initial h.g := by
    rw [made.made]
    exact initial_moved _ initial
  generalize (g.endOfStruct - pageOffset + pageSize - 1) / pageSize = first
  generalize virtToPage h.g.endOfStruct + 1 - first = n
  have grows := boot_range_grows h.g first n
  have ranged := boot_range_initial first n backed₁ initial₁
  have stop₂ : (bootRange h.g first n).endOfStruct = structEnd g.endOfStruct 16 :=
    grows.stop.trans stop
  have pools := @init_pools_initial { h with g := bootRange h.g first n } 16
    (grows_backed grows backed₁) ranged (by rw [stop₂]; exact positive)
  rw [stop₂] at pools
  have last := init_pools_grows { h with g := bootRange h.g first n } 16
  refine ⟨same_layout_trans layout (same_layout_trans grows.layout last.layout), fun j set => ?_,
    pools.1, pools.2⟩
  rw [← bits] at set
  exact last.kept j (grows.kept j set)

/- The pages that stay in use: all that are set after slab_init but those of the boot slabs. -/
def Reserved (h : Heap) (p : Nat) : Prop :=
  bit h.g.bitsMap p = true ∧ ∀ i < 16, (h.slab (h.pool i)).page ≠ p

theorem reserved_inv {area : Nat → Prop} {h : Heap} (inv : Inv area [] [] h)
    (others : ∀ i < 16, h.others i = []) : Inv (Reserved h) [] [] h := by
  have wider : ∀ p, area p → Reserved h p := fun p set_aside =>
    ⟨(inv.reserved p (Or.inl set_aside)).1, fun i hi =>
      (inv.reserved p (Or.inl set_aside)).2 i hi _ List.mem_cons_self⟩
  have bytes : ∀ a n, BootBytes area a n → BootBytes (Reserved h) a n := fun a n inside x within =>
    ⟨(inside x within).1, wider _ (inside x within).2⟩
  refine { inv with
    reserved := ?_
    apart := fun p member => absurd member List.not_mem_nil
    boot_struct := fun i hi => bytes _ _ (inv.boot_struct i hi)
    boot_map := fun i hi => bytes _ _ (inv.boot_map i hi) }
  intro p held
  rcases held with set_aside | member
  · refine ⟨set_aside.1, fun i hi s listed => ?_⟩
    rw [ring, others i hi] at listed
    rw [List.mem_singleton.mp listed]
    exact set_aside.2 i hi
  · exact absurd member List.not_mem_nil

/- The boot slabs lie behind the structures that were set up at boot. -/
theorem pool_page_positive {b : Machine} (bootable : Bootable b) {i : Nat} (hi : i < 16) :
    poolPage (structEnd (initMemory b).endOfStruct 16) i ≠ 0 := by
  have direct : pageOffset ≤ structEnd (initMemory b).endOfStruct 16 :=
    Nat.le_trans bootable.direct (le_struct_end _ 16)
  have above := @struct_end_apart (initMemory b).endOfStruct 0 16 (by decide)
  have start := le_struct_end (initMemory b).endOfStruct 0
  have offset := bootable.direct
  rw [(pool_page_eq direct i).1]
  unfold pageSize
  omega

theorem pool_pages_within {b : Machine} (bootable : Bootable b) :
    poolPage (structEnd (initMemory b).endOfStruct 16) 15 < 64 * ((initMemory b).bitsLength / 8) := by
  have grows := init_boot_pages_grows (zonesMade b) (bootPages (zonesMade b).endOfStruct)
  rw [← init_memory_eq] at grows
  have length : (initMemory b).bitsLength = bitsLengthOf b := by
    rw [grows.layout.length]
    exact init_zones_length _ _ _
  have slabs := bootable.slabs
  rw [length]
  unfold bitsLengthOf
  omega

/-- Where the allocator starts from. -/
structure BootReady (h : Heap) : Prop where
  inv : Inv (Reserved h) [] [] h
  rooted : Rooted h.g
  charged : Charged (Reserved h) [] h.g h.g

theorem boot_ready {b : Machine} (bootable : Bootable b) : BootReady (slabInit (initMemory b)) := by
  have ready := init_memory_ready bootable
  have grows := init_boot_pages_grows (zonesMade b) (bootPages (zonesMade b).endOfStruct)
  have initial := init_boot_pages_initial (bootPages (zonesMade b).endOfStruct) (zones_made_backed b)
    (zones_made_initial b)
  rw [← init_memory_eq] at grows initial
  have within := pool_pages_within bootable
  have made := slab_init_made ready within
  have done := slab_init_done ready.pages.backed initial fun _ => pool_page_positive bootable
  have inv := slab_init_inv bootable
  have placed := zones_made_placed bootable.toCovered
  have limits := done.layout.length
  have first : bit (slabInit (initMemory b)).g.bitsMap 0 = true :=
    done.kept 0 (ready.marked 0 (Nat.zero_le _))
  revert made done inv first limits
  generalize slabInit (initMemory b) = h
  intro made done inv limits first
  refine ⟨reserved_inv inv fun i _ => by rw [made.others], ?_, same_layout_refl _, linked_refl _,
    fun p set_aside => set_aside.1, ?_, ?_, fun p member => absurd member List.not_mem_nil⟩
  · intro p address
    have zoned : ((zonesMade b).pages p).phyAddress / pageSize = p := by
      rw [← grows.layout.phys, ← done.layout.phys, address]
      exact Nat.mul_div_cancel_left p (by decide)
    unfold pageLimit
    rw [limits]
    rcases placed p zoned with zero | small
    · omega
    · unfold pageLimit at small
      rw [← grows.layout.length] at small
      exact small
  · intro p small clear
    refine done.initial.free p small (fun zero => ?_) clear
    rw [zero, first] at clear
    cases clear
  · intro p small later set _
    have pool : ∃ i < 16, (h.slab (h.pool i)).page = p := by
      by_contra none
      exact later ⟨set, fun i hi same => none ⟨i, hi, same⟩⟩
    obtain ⟨i, hi, here⟩ := pool
    have page : (h.slab (h.pool i)).page =
        poolPage (structEnd (initMemory b).endOfStruct 16) i := by
      rw [made.pool i hi, made.slab i hi]
    rw [← here, page]
    exact done.pools i hi

theorem first_page_reserved {b : Machine} (bootable : Bootable b) :
    Reserved (slabInit (initMemory b)) 0 := by
  have ready := init_memory_ready bootable
  have grows := init_boot_pages_grows (zonesMade b) (bootPages (zonesMade b).endOfStruct)
  have initial := init_boot_pages_initial (bootPages (zonesMade b).endOfStruct) (zones_made_backed b)
    (zones_made_initial b)
  rw [← init_memory_eq] at grows initial
  have within := pool_pages_within bootable
  have made := slab_init_made ready within
  have done := slab_init_done ready.pages.backed initial fun _ => pool_page_positive bootable
  refine ⟨done.kept 0 (ready.marked 0 (Nat.zero_le _)), fun i hi => ?_⟩
  rw [made.pool i hi, made.slab i hi]
  exact pool_page_positive bootable hi

end BootPages

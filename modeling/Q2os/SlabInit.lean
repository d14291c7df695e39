import Q2os.KmallocSafety

/- init_memory and slab_init set the heap up: the boot slabs lie behind end_of_struct, their
   pages behind those of the boot structures. -/
namespace SlabInit
open Bitmap PageAllocator PageRuns Kmalloc KmallocPages HeapInvariant KmallocSlots KmallocSafety

/-- Bits are only set, and no address changes. -/
structure Grows (g g' : Gmd) : Prop where
  layout : SameLayout g g'
  kept : ∀ j, bit g.bitsMap j = true → bit g'.bitsMap j = true
  stop : g'.endOfStruct = g.endOfStruct

theorem update_zone_end (g : Gmd) (z : Option Nat) (f : Zone → Zone) :
    (updateZone g z f).endOfStruct = g.endOfStruct := by
  cases z <;> rfl

theorem page_init_end (g : Gmd) (i : Nat) (flags : BitVec 64) :
    (pageInit g i flags).endOfStruct = g.endOfStruct := by
  unfold pageInit
  dsimp only
  split
  · rw [update_zone_end]
    rfl
  · rfl

theorem grows_refl (g : Gmd) : Grows g g := ⟨same_layout_refl g, fun _ set => set, rfl⟩

theorem grows_trans {g h k : Gmd} (first : Grows g h) (second : Grows h k) : Grows g k :=
  ⟨same_layout_trans first.layout second.layout,
    fun j set => second.kept j (first.kept j set), second.stop.trans first.stop⟩

def Backed (g : Gmd) : Prop :=
  ∀ j < 64 * (g.bitsLength / 8), bit g.bitsMap j = false → (g.pages j).phyAddress = pageSize * j

theorem grows_backed {g g' : Gmd} (grows : Grows g g') (backed : Backed g) : Backed g' := by
  intro j small clear
  rw [grows.layout.length] at small
  rw [grows.layout.phys]
  apply backed j small
  cases before : bit g.bitsMap j with
  | false => rfl
  | true =>
    rw [grows.kept j before] at clear
    cases clear

theorem grows_pages {g g' : Gmd} (grows : Grows g g') (pages : Pages g) : Pages g' := by
  have backed := grows_backed grows pages.backed
  refine pages_of_same grows.layout ?_ pages
  intro j small clear
  rw [← grows.layout.phys]
  exact backed j (grows.layout.length ▸ small) clear

/- A page is marked through its address; a page without one was never free. -/
theorem mark_page {g : Gmd} {p : Nat} (backed : Backed g) (small : p < 64 * (g.bitsLength / 8)) :
    bit (setBit g.bitsMap ((g.pages p).phyAddress / pageSize)) p = true := by
  rw [bit_setBit]
  cases before : bit g.bitsMap p with
  | true => exact ite_self _
  | false =>
    rw [backed p small before, Nat.mul_div_cancel_left p (by decide), if_pos rfl]

theorem set_bit_kept (m : Words) (i j : Nat) (set : bit m j = true) : bit (setBit m i) j = true := by
  rw [bit_setBit, set]
  exact ite_self _

theorem page_init_grows (g : Gmd) (i : Nat) (flags : BitVec 64) : Grows g (pageInit g i flags) :=
  ⟨page_init_layout g i flags, fun j set => by rw [page_init_bits]; exact set,
    page_init_end g i flags⟩

theorem boot_page_bits (g : Gmd) (p : Nat) :
    (bootPage g p).bitsMap = setBit g.bitsMap ((g.pages p).phyAddress / pageSize) := by
  unfold bootPage
  dsimp only
  rw [page_init_bits, update_zone_bits]
  rfl

theorem boot_page_grows (g : Gmd) (p : Nat) : Grows g (bootPage g p) := by
  refine ⟨?_, ?_, ?_⟩
  · exact same_layout_trans (same_layout_trans (set_bits_layout g _)
      (update_zone_layout _ _ countUsed (fun _ => rfl))) (page_init_layout _ _ _)
  · intro j set
    rw [boot_page_bits]
    exact set_bit_kept _ _ _ set
  · unfold bootPage
    dsimp only
    rw [page_init_end, update_zone_end]
    rfl

theorem boot_range_grows (g : Gmd) (first n : Nat) : Grows g (bootRange g first n) := by
  induction n with
  | zero => exact grows_refl g
  | succ n ih => exact grows_trans ih (boot_page_grows _ _)

theorem boot_range_marks {g : Gmd} {first n p : Nat} (backed : Backed g)
    (small : p < 64 * (g.bitsLength / 8)) (within : Within first n p) :
    bit (bootRange g first n).bitsMap p = true := by
  induction n with
  | zero =>
    have low := within.1
    have high := within.2
    omega
  | succ n ih =>
    have before := boot_range_grows g first n
    by_cases last : p = first + n
    · subst last
      rw [bootRange, boot_page_bits]
      exact mark_page (grows_backed before backed) (before.layout.length ▸ small)
    · have low := within.1
      have high := within.2
      exact (boot_page_grows _ _).kept p (ih ⟨low, by omega⟩)

theorem init_boot_pages_grows (g : Gmd) (n : Nat) : Grows g (initBootPages g n) := by
  refine ⟨init_boot_pages_layout g n, ?_, ?_⟩
  · induction n with
    | zero => exact fun j set => set
    | succ n ih =>
      intro j set
      simp only [initBootPages, update_zone_bits, setBits, page_init_bits]
      exact set_bit_kept _ _ _ (ih j set)
  · induction n with
    | zero => rfl
    | succ n ih =>
      simp only [initBootPages, update_zone_end, setBits, page_init_end]
      exact ih

theorem init_boot_pages_marks {g : Gmd} {n p : Nat} (backed : Backed g)
    (small : p < 64 * (g.bitsLength / 8)) (positive : 0 < p) (below : p ≤ n) :
    bit (initBootPages g n).bitsMap p = true := by
  induction n with
  | zero => omega
  | succ n ih =>
    have before := init_boot_pages_grows g n
    by_cases last : p = n + 1
    · subst last
      have inited := grows_trans before (page_init_grows (initBootPages g n) (n + 1)
        (pgPTableMaped ||| pgKernelInit ||| pgKernel))
      simp only [initBootPages, update_zone_bits, setBits]
      exact mark_page (grows_backed inited backed) (inited.layout.length ▸ small)
    · have kept := ih (by omega)
      simp only [initBootPages, update_zone_bits, setBits, page_init_bits]
      exact set_bit_kept _ _ _ kept

theorem init_pages_backed {g : Gmd} {zone start n : Nat} (aligned : start = pageSize * (start / pageSize))
    (backed : Backed g) : Backed (initPages g zone start n) := by
  induction n with
  | zero => exact backed
  | succ n ih =>
    intro j small clear
    have address : start + pageSize * n = pageSize * (start / pageSize + n) := by
      rw [Nat.mul_add, ← aligned]
    have number : (start + pageSize * n) / pageSize = start / pageSize + n := by
      rw [address, Nat.mul_div_cancel_left _ (by decide)]
    by_cases here : j = start / pageSize + n
    · subst here
      simp only [initPages, setBits, setPage, Function.update_self]
      exact address
    · have kept : (setPage (initPages g zone start n) (start / pageSize + n)
          ⟨some zone, start + pageSize * n, 0, 0, 0⟩).bitsMap = (initPages g zone start n).bitsMap :=
        rfl
      simp only [initPages, setBits, kept, bit_flipBit, number, if_neg (Ne.symm here)] at clear
      simp only [initPages, setBits, setPage, Function.update_of_ne here]
      exact ih j small clear

theorem init_zones_backed {g : Gmd} {p : Nat → E820} (n : Nat) (backed : Backed g) :
    Backed (initZones g p n) := by
  induction n with
  | zero => exact backed
  | succ n ih =>
    unfold initZones initZone
    by_cases zone : isZone (p n)
    · simp only [if_pos zone]
      refine init_pages_backed ?_ ih
      unfold regionStart page2MAlign
      rw [region_multiple]
      exact Nat.mul_comm _ _
    · simp only [if_neg zone]
      exact ih

theorem init_pages_outside {g : Gmd} {zone start n p : Nat}
    (outside : ¬ Within (start / pageSize) n p) :
    bit (initPages g zone start n).bitsMap p = bit g.bitsMap p := by
  induction n with
  | zero => rfl
  | succ n ih =>
    unfold Within at outside ih
    have number : (start + pageSize * n) / pageSize = start / pageSize + n :=
      Nat.add_mul_div_left start n (by decide)
    simp only [initPages, setBits, setPage, bit_flipBit, number]
    rw [if_neg (by omega)]
    exact ih (by omega)

theorem init_zones_low {g : Gmd} {p : Nat → E820} {n : Nat}
    (low : ∀ i < n, isZone (p i) → 0 < regionStart (p i)) :
    bit (initZones g p n).bitsMap 0 = bit g.bitsMap 0 := by
  induction n with
  | zero => rfl
  | succ n ih =>
    have before := ih fun i small => low i (by omega)
    unfold initZones initZone
    by_cases zone : isZone (p n)
    · simp only [if_pos zone]
      have above := low n (by omega) zone
      have first : 0 < regionStart (p n) / pageSize := by
        unfold regionStart page2MAlign at *
        rw [region_multiple]
        exact Nat.pos_of_mul_pos_right above
      rw [init_pages_outside (fun within => by have := within.1; omega)]
      exact before
    · simp only [if_neg zone]
      exact before

/-- The page allocator as init_memory leaves it for slab_init. -/
structure Ready (g : Gmd) : Prop where
  pages : Pages g
  direct : pageOffset ≤ g.endOfStruct
  marked : ∀ p ≤ virtToPage g.endOfStruct, bit g.bitsMap p = true

def structEnd (tmpAddress : Nat) : Nat → Nat
  | 0 => tmpAddress
  | i + 1 => (structEnd tmpAddress i + slabBytes + 8 * 10 +
      colorLengthOf (pageSize / cacheSize i) + 8 * 10) / 8 * 8

theorem struct_end_step (tmp i : Nat) : structEnd tmp i + slabBytes + 8 * 10 +
    colorLengthOf (pageSize / cacheSize i) ≤ structEnd tmp (i + 1) := by
  rw [structEnd]
  omega

theorem struct_end_mono {tmp i k : Nat} (below : i ≤ k) : structEnd tmp i ≤ structEnd tmp k := by
  induction below with
  | refl => exact Nat.le_refl _
  | step _ ih =>
    refine Nat.le_trans ih (Nat.le_trans ?_ (struct_end_step tmp _))
    omega

theorem le_struct_end (tmp i : Nat) : tmp ≤ structEnd tmp i := by
  have mono : structEnd tmp 0 ≤ structEnd tmp i := struct_end_mono (Nat.zero_le i)
  exact mono

theorem struct_end_apart {tmp i k : Nat} (below : i < k) : structEnd tmp i < structEnd tmp k := by
  have step := struct_end_step tmp i
  have later : structEnd tmp (i + 1) ≤ structEnd tmp k := struct_end_mono below
  unfold slabBytes at step
  omega

theorem struct_end_injective {tmp i k : Nat} (same : structEnd tmp i = structEnd tmp k) : i = k := by
  rcases Nat.lt_trichotomy i k with below | equal | above
  · have apart : structEnd tmp i < structEnd tmp k := struct_end_apart below
    omega
  · exact equal
  · have apart : structEnd tmp k < structEnd tmp i := struct_end_apart above
    omega

def bootSlab (tmpAddress i : Nat) : Slab :=
  let count := pageSize / cacheSize i
  ⟨0, 0, count, 0, colorLengthOf count, count, structEnd tmpAddress i + slabBytes + 8 * 10,
    freshColors count⟩

structure CachesMade (g : Gmd) (n : Nat) (h : Heap) : Prop where
  made : h.g = { g with endOfStruct := structEnd g.endOfStruct n }
  others : h.others = fun _ => []
  pool : ∀ i < n, h.pool i = structEnd g.endOfStruct i
  slab : ∀ i < n, h.slab (structEnd g.endOfStruct i) = bootSlab g.endOfStruct i
  totalFree : ∀ i < n, h.totalFree i = pageSize / cacheSize i
  totalUsing : ∀ i < n, h.totalUsing i = 0

theorem init_caches_made (g : Gmd) (n : Nat) : CachesMade g n (initCaches (emptyHeap g) n) := by
  induction n with
  | zero =>
    have none : ∀ i, ¬ i < 0 := fun i => Nat.not_lt_zero i
    exact ⟨rfl, rfl, fun i small => absurd small (none i), fun i small => absurd small (none i),
      fun i small => absurd small (none i), fun i small => absurd small (none i)⟩
  | succ n ih =>
    have stop : (initCaches (emptyHeap g) n).g.endOfStruct = structEnd g.endOfStruct n := by
      rw [ih.made]
    constructor
    · simp only [initCaches, initCache, setSlab]
      rw [ih.made]
      rfl
    · exact ih.others
    · intro i small
      simp only [initCaches, initCache, setSlab, stop]
      by_cases last : i = n
      · subst last
        rw [Function.update_self]
      · rw [Function.update_of_ne last]
        exact ih.pool i (by omega)
    · intro i small
      simp only [initCaches, initCache, setSlab, stop]
      by_cases last : i = n
      · subst last
        rw [Function.update_self]
        rfl
      · have other : structEnd g.endOfStruct i ≠ structEnd g.endOfStruct n :=
          fun same => last (struct_end_injective same)
        rw [Function.update_of_ne other]
        exact ih.slab i (by omega)
    · intro i small
      simp only [initCaches, initCache, setSlab]
      by_cases last : i = n
      · subst last
        rw [Function.update_self]
      · rw [Function.update_of_ne last]
        exact ih.totalFree i (by omega)
    · intro i small
      simp only [initCaches, initCache, setSlab]
      by_cases last : i = n
      · subst last
        rw [Function.update_self]
      · rw [Function.update_of_ne last]
        exact ih.totalUsing i (by omega)

def poolPage (stop i : Nat) : Nat := virtToPage (poolAddress stop i)

theorem pool_page_eq {stop : Nat} (direct : pageOffset ≤ stop) (i : Nat) :
    poolPage stop i = (stop - pageOffset + pageSize - 1) / pageSize + i ∧
      poolAddress stop i = physToVirt (pageSize * poolPage stop i) := by
  unfold poolPage virtToPage poolAddress physToVirt
  unfold pageSize pageOffset at *
  omega

theorem init_pools_succ (h : Heap) (n page virtual : Nat)
    (address : poolAddress (initPools h n).g.endOfStruct n = virtual)
    (number : virtToPage virtual = page) : initPools h (n + 1) =
      setSlab { initPools h n with g := bootPage (initPools h n).g page } ((initPools h n).pool n)
        { (initPools h n).slab ((initPools h n).pool n) with
          page := page, vaddress := virtual } := by
  subst number address
  rfl

structure PoolsMade (h : Heap) (n : Nat) (h' : Heap) : Prop where
  grows : Grows h.g h'.g
  pool : h'.pool = h.pool
  others : h'.others = h.others
  totalFree : h'.totalFree = h.totalFree
  totalUsing : h'.totalUsing = h.totalUsing
  slab : ∀ i < n, h'.slab (h.pool i) = { h.slab (h.pool i) with
    page := poolPage h.g.endOfStruct i, vaddress := poolAddress h.g.endOfStruct i }
  rest : ∀ t, (∀ i < n, t ≠ h.pool i) → h'.slab t = h.slab t
  marked : ∀ i < n, bit h'.g.bitsMap (poolPage h.g.endOfStruct i) = true

theorem pool_made {h h₁ : Heap} {g₁ : Gmd} {n : Nat} (before : PoolsMade h n h₁)
    (grows : Grows h₁.g g₁) (marked : bit g₁.bitsMap (poolPage h.g.endOfStruct n) = true)
    (fresh : ∀ i < n, h.pool i ≠ h.pool n) :
    PoolsMade h (n + 1) (setSlab { h₁ with g := g₁ } (h₁.pool n) { h₁.slab (h₁.pool n) with
      page := poolPage h.g.endOfStruct n, vaddress := poolAddress h.g.endOfStruct n }) := by
  constructor
  · exact grows_trans before.grows grows
  · exact before.pool
  · exact before.others
  · exact before.totalFree
  · exact before.totalUsing
  · intro i less
    simp only [setSlab, before.pool]
    by_cases last : i = n
    · subst last
      rw [Function.update_self, before.rest _ fun k below => (fresh k below).symm]
    · rw [Function.update_of_ne (fresh i (by omega))]
      exact before.slab i (by omega)
  · intro t others
    simp only [setSlab, before.pool]
    rw [Function.update_of_ne (others n (by omega))]
    exact before.rest t fun i less => others i (by omega)
  · intro i less
    by_cases last : i = n
    · rw [last]
      exact marked
    · exact grows.kept _ (before.marked i (by omega))

theorem init_pools_made {h : Heap} {n : Nat} (pages : Pages h.g)
    (distinct : ∀ i k, i < n → k < n → h.pool i = h.pool k → i = k)
    (inside : ∀ i < n, poolPage h.g.endOfStruct i < 64 * (h.g.bitsLength / 8)) :
    PoolsMade h n (initPools h n) := by
  induction n with
  | zero =>
    exact ⟨grows_refl _, rfl, rfl, rfl, rfl, fun i less => absurd less (by omega), fun t _ => rfl,
      fun i less => absurd less (by omega)⟩
  | succ n ih =>
    have before := ih (fun i k hi hk => distinct i k (by omega) (by omega))
      fun i less => inside i (by omega)
    have fresh : ∀ i < n, h.pool i ≠ h.pool n := by
      intro i less same
      have equal := distinct i n (by omega) (by omega) same
      omega
    have small := inside n (by omega)
    rw [← before.grows.layout.length] at small
    rw [init_pools_succ h n (poolPage h.g.endOfStruct n) (poolAddress h.g.endOfStruct n)
      (by rw [before.grows.stop]) rfl]
    refine pool_made before (boot_page_grows _ _) ?_ fresh
    rw [boot_page_bits]
    exact mark_page (grows_pages before.grows pages).backed small

def BootArea (tmpAddress stop : Nat) (p : Nat) : Prop :=
  ∃ x, tmpAddress ≤ x ∧ x < stop ∧ virtToPage x = p

theorem boot_area_bytes {tmp stop a n : Nat} (direct : pageOffset ≤ tmp) (low : tmp ≤ a)
    (high : a + n ≤ stop) : BootBytes (BootArea tmp stop) a n := by
  intro x within
  have from_a := within.1
  have to_a := within.2
  exact ⟨by omega, x, by omega, by omega, rfl⟩

theorem boot_area_below {tmp stop p i : Nat} (direct : pageOffset ≤ tmp)
    (area : BootArea tmp stop p) : p < poolPage stop i := by
  obtain ⟨x, low, high, rfl⟩ := area
  rw [(pool_page_eq (Nat.le_trans direct (by omega)) i).1]
  unfold virtToPage
  unfold pageSize pageOffset at *
  omega

/- The slabs of the first n caches after slab_init. -/
structure SlabsMade (g : Gmd) (n : Nat) (h : Heap) : Prop where
  pages : Pages h.g
  pool : ∀ i < n, h.pool i = structEnd g.endOfStruct i
  others : h.others = fun _ => []
  slab : ∀ i < n, h.slab (structEnd g.endOfStruct i) = { bootSlab g.endOfStruct i with
    page := poolPage (structEnd g.endOfStruct n) i
    vaddress := poolAddress (structEnd g.endOfStruct n) i }
  totalFree : ∀ i < n, h.totalFree i = pageSize / cacheSize i
  totalUsing : ∀ i < n, h.totalUsing i = 0
  used : ∀ i < n, bit h.g.bitsMap (poolPage (structEnd g.endOfStruct n) i) = true
  area : ∀ p, BootArea g.endOfStruct (structEnd g.endOfStruct n) p → bit h.g.bitsMap p = true

theorem slab_pages_made {g : Gmd} {n first last : Nat} {h : Heap} (ready : Ready g)
    (made : CachesMade g n h) (positive : 0 < n)
    (inside : ∀ i < n, poolPage (structEnd g.endOfStruct n) i < 64 * (g.bitsLength / 8))
    (firstPage : (g.endOfStruct - pageOffset + pageSize - 1) / pageSize = first)
    (lastPage : virtToPage (structEnd g.endOfStruct n) = last) :
    SlabsMade g n (initPools { h with g := bootRange h.g first (last + 1 - first) } n) := by
  have stop : h.g.endOfStruct = structEnd g.endOfStruct n := by rw [made.made]
  have length : h.g.bitsLength = g.bitsLength := by rw [made.made]
  have bits : h.g.bitsMap = g.bitsMap := by rw [made.made]
  have pages : Pages h.g := by
    rw [made.made]
    exact ⟨ready.pages.extend, ready.pages.held, ready.pages.backed⟩
  have grows := boot_range_grows h.g first (last + 1 - first)
  have marks : ∀ p, BootArea g.endOfStruct (structEnd g.endOfStruct n) p →
      bit (bootRange h.g first (last + 1 - first)).bitsMap p = true := by
    intro p area
    have below := Nat.lt_trans (boot_area_below ready.direct area) (inside 0 positive)
    obtain ⟨x, low, high, rfl⟩ := area
    by_cases early : virtToPage x ≤ virtToPage g.endOfStruct
    · refine grows.kept _ ?_
      rw [bits]
      exact ready.marked _ early
    · have reach : virtToPage x ≤ last := by
        rw [← lastPage]
        exact Nat.div_le_div_right (by omega)
      have start : first ≤ virtToPage x := by
        rw [← firstPage]
        have direct := ready.direct
        unfold virtToPage at early ⊢
        unfold pageSize pageOffset at *
        omega
      exact boot_range_marks pages.backed (length ▸ below) ⟨start, by omega⟩
  revert grows marks
  generalize bootRange h.g first (last + 1 - first) = g₁
  intro grows marks
  have stop₁ : g₁.endOfStruct = structEnd g.endOfStruct n := grows.stop.trans stop
  have distinct : ∀ i k, i < n → k < n → h.pool i = h.pool k → i = k := by
    intro i k hi hk same
    rw [made.pool i hi, made.pool k hk] at same
    exact struct_end_injective same
  have placed : ∀ i < n, poolPage g₁.endOfStruct i < 64 * (g₁.bitsLength / 8) := by
    intro i below
    rw [stop₁, grows.layout.length, length]
    exact inside i below
  have pools := @init_pools_made { h with g := g₁ } n (grows_pages grows pages) distinct placed
  constructor
  · exact grows_pages pools.grows (grows_pages grows pages)
  · intro i below
    rw [pools.pool]
    exact made.pool i below
  · rw [pools.others]
    exact made.others
  · intro i below
    have entry := pools.slab i below
    dsimp only at entry
    rw [stop₁, made.pool i below] at entry
    rw [entry, made.slab i below]
  · intro i below
    rw [pools.totalFree]
    exact made.totalFree i below
  · intro i below
    rw [pools.totalUsing]
    exact made.totalUsing i below
  · intro i below
    have marked := pools.marked i below
    dsimp only at marked
    rw [stop₁] at marked
    exact marked
  · exact fun p area => pools.grows.kept p (marks p area)

theorem slab_init_made {g : Gmd} (ready : Ready g)
    (inside : poolPage (structEnd g.endOfStruct 16) 15 < 64 * (g.bitsLength / 8)) :
    SlabsMade g 16 (slabInit g) := by
  have made := init_caches_made g 16
  have direct : pageOffset ≤ structEnd g.endOfStruct 16 :=
    Nat.le_trans ready.direct (le_struct_end _ 16)
  have below : ∀ i < 16, poolPage (structEnd g.endOfStruct 16) i < 64 * (g.bitsLength / 8) := by
    intro i small
    rw [(pool_page_eq direct _).1] at inside ⊢
    omega
  have stop : (initCaches (emptyHeap g) 16).g.endOfStruct = structEnd g.endOfStruct 16 := by
    rw [made.made]
  unfold slabInit
  dsimp only
  revert made stop
  generalize initCaches (emptyHeap g) 16 = h
  intro made stop
  rw [stop]
  exact slab_pages_made ready made (by decide) below rfl rfl

theorem count_set_fresh (count n : Nat) (small : n ≤ count) : countSet (freshColors count) n = 0 := by
  induction n with
  | zero => rfl
  | succ n ih =>
    rw [countSet, ih (by omega), fresh_colors_clear (by omega)]
    rfl

/-- The heap after slab_init keeps its invariant, with no block allocated. -/
theorem made_inv {g : Gmd} {h : Heap} (ready : Ready g) (made : SlabsMade g 16 h) :
    Inv (BootArea g.endOfStruct (structEnd g.endOfStruct 16)) [] [] h := by
  have only : ∀ i < 16, ∀ s, s ∈ ring h i → s = structEnd g.endOfStruct i := by
    intro i small s listed
    rw [ring, made.pool i small, made.others] at listed
    exact List.mem_singleton.mp listed
  have before : ∀ i < 16, structEnd g.endOfStruct i + slabBytes + 8 * 10 +
      colorLengthOf (pageSize / cacheSize i) ≤ structEnd g.endOfStruct 16 :=
    fun i small => Nat.le_trans (struct_end_step _ i) (struct_end_mono (Nat.succ_le_of_lt small))
  have slab := made.slab
  have used := made.used
  have area := made.area
  revert before slab used area
  generalize structEnd g.endOfStruct 16 = stop
  intro before slab used area
  have direct : pageOffset ≤ stop := by
    have first := before 0 (by decide)
    have low : structEnd g.endOfStruct 0 = g.endOfStruct := rfl
    have base := ready.direct
    omega
  have after := le_struct_end g.endOfStruct
  have pages : ∀ i k, poolPage stop i = poolPage stop k → i = k := by
    intro i k same
    rw [(pool_page_eq direct i).1, (pool_page_eq direct k).1] at same
    omega
  have no_metas : metas h = [] := by
    unfold metas
    rw [List.flatMap_eq_nil_iff]
    intro i _
    unfold metasOf
    rw [made.others]
    split <;> rfl
  have away : ∀ p, BootArea g.endOfStruct stop p → ∀ i < 16, ∀ s ∈ ring h i, (h.slab s).page ≠ p := by
    intro p inArea i hi s hs
    rw [only i hi s hs, slab i hi]
    exact Nat.ne_of_gt (boot_area_below ready.direct inArea)
  exact {
    pages := made.pages
    ring_nodup := by
      intro i hi
      rw [ring, made.others]
      simp
    own := by
      intro i hi k hk s hs t ht same
      rw [only i hi s hs, only k hk t ht, slab i hi, slab k hk] at same
      have equal := pages i k same
      subst equal
      exact ⟨rfl, (only i hi s hs).trans (only i hi t ht).symm⟩
    slab_ok := by
      intro i hi s hs
      rw [only i hi s hs]
      constructor
      · rw [slab i hi]
        exact used i hi
      · rw [slab i hi]
        exact (pool_page_eq direct i).2
      · rw [slab i hi]
        exact Nat.div_mul_le_self _ _
      · rw [slab i hi]
        exact (count_set_fresh _ _ (Nat.le_refl _)).symm
      · rw [slab i hi]
        rfl
      · rw [slab i hi]
        rfl
    reserved := by
      intro p held
      have inArea := held.resolve_right (List.not_mem_nil)
      exact ⟨area p inArea, away p inArea⟩
    apart := fun p member => absurd member List.not_mem_nil
    pending_nodup := List.nodup_nil
    pending_mapped := fun p member => absurd member List.not_mem_nil
    boot_struct := by
      intro i hi
      rw [made.pool i hi]
      exact boot_area_bytes ready.direct (after i) (by have := before i hi; omega)
    boot_map := by
      intro i hi
      rw [made.pool i hi, slab i hi]
      have low := after i
      have high := before i hi
      exact boot_area_bytes ready.direct
        (show g.endOfStruct ≤ structEnd g.endOfStruct i + slabBytes + 8 * 10 by omega) high
    in_page := by
      intro i _ s later
      rw [made.others] at later
      exact absurd later List.not_mem_nil
    later_mapped := by
      intro i _ s later
      rw [made.others] at later
      exact absurd later List.not_mem_nil
    occupied := by
      intro e member
      rw [no_metas] at member
      exact absurd member List.not_mem_nil
    distinct := by
      rw [no_metas]
      exact List.nodup_nil
    totals := by
      intro i hi
      have rings : ring h i = [structEnd g.endOfStruct i] := by
        rw [ring, made.pool i hi, made.others]
      constructor
      · rw [sumOver, rings, List.map_singleton, slab i hi, made.totalFree i hi]
        rfl
      · rw [sumOver, rings, List.map_singleton, slab i hi, made.totalUsing i hi]
        rfl }

/-- The lowest 2MB belong to no zone, as init_memory takes for granted, and the boot structures
and the pages of the boot slabs lie in the memory that the table describes. -/
structure Bootable (b : Machine) : Prop extends Covered b where
  low : ∀ i ≤ lastEntry b.table 31 0, isZone (b.table i) → 0 < regionStart (b.table i)
  direct : pageOffset ≤ (initMemory b).endOfStruct
  counted : bitsSizeOf b ≤ 2 ^ 31
  slabs : poolPage (structEnd (initMemory b).endOfStruct 16) 15 < bitsSizeOf b

theorem empty_set (b : Machine) (j : Nat) (small : j < 64 * (bitsLengthOf b / 8)) :
    bit (emptyGmd b).bitsMap j ≠ false := by
  intro clear
  have inside : j / 64 < bitsLengthOf b / 8 := by
    omega
  have set : bit (emptyGmd b).bitsMap j = true := by
    unfold bit emptyGmd
    simp only [if_pos inside, BitVec.getLsbD_allOnes]
    exact decide_eq_true (Nat.mod_lt j (by decide))
  rw [set] at clear
  cases clear

theorem empty_backed (b : Machine) : Backed (emptyGmd b) :=
  fun j small clear => absurd clear (empty_set b j small)

def zonesMade (b : Machine) : Gmd :=
  let g := initZones (emptyGmd b) b.table (lastEntry b.table 31 0 + 1)
  let g := setPage g 0
    { g.pages 0 with
      zoneStruct := some 0, phyAddress := 0, referenceCount := 1, age := 0,
      attr := pgPTableMaped ||| pgKernelInit ||| pgKernel }
  { g with zoneUnmapedIndex := unmapedIndex g.zones, endOfStruct := endOfStructOf b g.zones.length }

theorem init_memory_eq (b : Machine) :
    initMemory b = initBootPages (zonesMade b) (bootPages (zonesMade b).endOfStruct) := rfl

theorem zones_made_backed (b : Machine) : Backed (zonesMade b) := by
  have zones := init_zones_backed (p := b.table) (lastEntry b.table 31 0 + 1) (empty_backed b)
  intro j small clear
  unfold zonesMade at *
  simp only [setPage] at *
  by_cases first : j = 0
  · subst first
    rw [Function.update_self]
    rfl
  · rw [Function.update_of_ne first]
    exact zones j small clear

theorem boot_reach {tmp stop i bound : Nat} (direct : pageOffset ≤ tmp) (later : tmp ≤ stop)
    (slabs : poolPage stop i < bound) : virtToPage tmp < bound := by
  rw [(pool_page_eq (Nat.le_trans direct later) i).1] at slabs
  unfold virtToPage
  unfold pageSize pageOffset at *
  omega

theorem init_memory_ready {b : Machine} (bootable : Bootable b) : Ready (initMemory b) := by
  have reach := boot_reach bootable.direct (le_struct_end _ 16) bootable.slabs
  have laid := init_memory_laid bootable.toCovered
  have grows := init_boot_pages_grows (zonesMade b) (bootPages (zonesMade b).endOfStruct)
  rw [← init_memory_eq] at grows
  have backed := grows_backed grows (zones_made_backed b)
  have stop := grows.stop
  have length : (initMemory b).bitsLength = bitsLengthOf b := by
    rw [grows.layout.length]
    exact init_zones_length _ _ _
  have inside : ∀ p ≤ virtToPage (initMemory b).endOfStruct,
      p < 64 * ((initMemory b).bitsLength / 8) := by
    intro p small
    rw [length]
    unfold bitsLengthOf
    omega
  refine ⟨⟨laid.extend, laid.held, backed⟩, bootable.direct, ?_⟩
  intro p small
  have within := inside p small
  by_cases first : p = 0
  · subst first
    apply grows.kept
    have low := @init_zones_low (emptyGmd b) b.table (lastEntry b.table 31 0 + 1)
      fun i below => bootable.low i (by omega)
    have empty : bit (emptyGmd b).bitsMap 0 = true := by
      cases clear : bit (emptyGmd b).bitsMap 0 with
      | true => rfl
      | false => exact absurd clear (empty_set b 0 (length ▸ within))
    exact low.trans empty
  · have boot : p ≤ bootPages (zonesMade b).endOfStruct := by
      have direct := bootable.direct
      have counted := bootable.counted
      rw [stop] at direct reach small
      unfold virtToPage at reach small
      unfold bootPages
      dsimp only
      unfold pageSize pageOffset at *
      split <;> omega
    rw [init_memory_eq]
    exact init_boot_pages_marks (zones_made_backed b) (grows.layout.length ▸ within) (by omega) boot

/-- slab_init sets the heap up. -/
theorem slab_init_inv {b : Machine} (bootable : Bootable b) :
    Inv (BootArea (initMemory b).endOfStruct (structEnd (initMemory b).endOfStruct 16)) [] []
      (slabInit (initMemory b)) := by
  have ready := init_memory_ready bootable
  have inside : poolPage (structEnd (initMemory b).endOfStruct 16) 15 <
      64 * ((initMemory b).bitsLength / 8) := by
    have length : (initMemory b).bitsLength = bitsLengthOf b := by
      rw [init_memory_eq, (init_boot_pages_layout _ _).length]
      exact init_zones_length _ _ _
    have slabs := bootable.slabs
    rw [length]
    unfold bitsLengthOf
    omega
  exact made_inv ready (slab_init_made ready inside)

end SlabInit

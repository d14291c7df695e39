import Q2os.KmallocPages

/- The invariant of the kmalloc heap. Every slab has a page of its own; every block that is
   allocated, for a caller or for the metadata of a slab, is a slot of one slab whose color
   bit is set. -/
namespace HeapInvariant
open Bitmap PageAllocator PageRuns Kmalloc KmallocPages

def countSet (m : Words) : Nat → Nat
  | 0 => 0
  | j + 1 => countSet m j + if bit m j then 1 else 0

/-- A block of e.2 bytes at e.1 is slot j of slab s in cache i. -/
structure Occupied (h : Heap) (e : Nat × Nat) (i s j : Nat) : Prop where
  cache : i < 16
  listed : s ∈ ring h i
  slot : j < (h.slab s).colorCount
  address : e.1 = (h.slab s).vaddress + cacheSize i * j
  fits : e.2 ≤ cacheSize i
  sized : sizeClass e.2 = i
  taken : bit (h.slab s).colors j = true

/-- The slab's page is in use, its slots are inside the page and its counters agree with its
color map. -/
structure SlabOk (h : Heap) (i s : Nat) : Prop where
  marked : bit h.g.bitsMap (h.slab s).page = true
  mapped : (h.slab s).vaddress = physToVirt (pageSize * (h.slab s).page)
  slots : (h.slab s).colorCount * cacheSize i ≤ pageSize
  using_count : (h.slab s).usingCount = countSet (h.slab s).colors (h.slab s).colorCount
  free_count : (h.slab s).freeCount + (h.slab s).usingCount = (h.slab s).colorCount
  length : (h.slab s).colorLength = colorLengthOf (h.slab s).colorCount

def sumOver (f : Slab → Nat) (h : Heap) (i : Nat) : Nat :=
  ((ring h i).map fun s => f (h.slab s)).sum

structure Totals (h : Heap) (i : Nat) : Prop where
  free : h.totalFree i = sumOver Slab.freeCount h i
  used : h.totalUsing i = sumOver Slab.usingCount h i

def tailBytes (i : Nat) : Nat := slabBytes + pageSize / cacheSize i / 8

/-- A later slab of the classes up to 512 and its color map lie at the end of its page. -/
structure InPage (h : Heap) (i s : Nat) : Prop where
  struct : s + tailBytes i = (h.slab s).vaddress + pageSize
  map : (h.slab s).colorMap = s + slabBytes
  mapLength : (h.slab s).colorLength ≤ pageSize / cacheSize i / 8
  slots : (h.slab s).colorCount * cacheSize i + tailBytes i ≤ pageSize

def metasOf (h : Heap) (i : Nat) : List (Nat × Nat) :=
  if i < 5 then []
  else (h.others i).flatMap fun s =>
    [(s, slabBytes), ((h.slab s).colorMap, (h.slab s).colorLength)]

def metas (h : Heap) : List (Nat × Nat) := (List.range 16).flatMap (metasOf h)

/- The metadata of a boot slab lies in pages that were set aside at boot. -/
def BootBytes (boot : Nat → Prop) (a n : Nat) : Prop :=
  ∀ x, Within a n x → pageOffset ≤ x ∧ boot (virtToPage x)

/-- pending are pages that a call in progress holds, extra the blocks that are allocated and
not metadata of a listed slab, boot the pages set aside at boot. -/
structure Inv (boot : Nat → Prop) (pending : List Nat) (extra : List (Nat × Nat)) (h : Heap) :
    Prop where
  pages : Pages h.g
  ring_nodup : ∀ i < 16, (ring h i).Nodup
  own : ∀ i < 16, ∀ k < 16, ∀ s ∈ ring h i, ∀ t ∈ ring h k,
    (h.slab s).page = (h.slab t).page → i = k ∧ s = t
  slab_ok : ∀ i < 16, ∀ s ∈ ring h i, SlabOk h i s
  reserved : ∀ p, boot p ∨ p ∈ pending → bit h.g.bitsMap p = true ∧
    ∀ i < 16, ∀ s ∈ ring h i, (h.slab s).page ≠ p
  apart : ∀ p ∈ pending, ¬ boot p
  pending_nodup : pending.Nodup
  pending_mapped : ∀ p ∈ pending, (h.g.pages p).phyAddress = pageSize * p
  boot_struct : ∀ i < 16, BootBytes boot (h.pool i) slabBytes
  boot_map : ∀ i < 16, BootBytes boot (h.slab (h.pool i)).colorMap (h.slab (h.pool i)).colorLength
  in_page : ∀ i < 5, ∀ s ∈ h.others i, InPage h i s
  later_mapped : ∀ i < 16, ∀ s ∈ h.others i,
    (h.g.pages (h.slab s).page).phyAddress = pageSize * (h.slab s).page
  occupied : ∀ e ∈ extra ++ metas h, ∃ i s j, Occupied h e i s j
  distinct : ((extra ++ metas h).map Prod.fst).Nodup
  totals : ∀ i < 16, Totals h i

theorem cacheSize_pos (i : Nat) : 0 < cacheSize i := Nat.two_pow_pos _

theorem page_of_address {p r : Nat} (inside : r < pageSize) :
    virtToPage (physToVirt (pageSize * p) + r) = p := by
  unfold virtToPage physToVirt
  unfold pageSize at *
  unfold pageOffset
  omega

theorem base_of_address {p r : Nat} (inside : r < pageSize) :
    (physToVirt (pageSize * p) + r) / pageSize * pageSize = physToVirt (pageSize * p) := by
  unfold physToVirt
  unfold pageSize at *
  unfold pageOffset
  omega

variable {boot : Nat → Prop} {pending : List Nat} {extra : List (Nat × Nat)} {h : Heap}

theorem slot_end {i s j : Nat} (slot : j < (h.slab s).colorCount) :
    cacheSize i * j + cacheSize i ≤ (h.slab s).colorCount * cacheSize i := by
  rw [← Nat.mul_succ, Nat.mul_comm]
  exact Nat.mul_le_mul_right _ slot

theorem slot_page {i s j x : Nat} (ok : SlabOk h i s) (slot : j < (h.slab s).colorCount)
    (within : Within ((h.slab s).vaddress + cacheSize i * j) (cacheSize i) x) :
    virtToPage x = (h.slab s).page ∧ x < (h.slab s).vaddress + (h.slab s).colorCount * cacheSize i := by
  have last := slot_end (i := i) slot
  have slots := ok.slots
  have low := within.1
  have high := within.2
  obtain ⟨r, rfl⟩ : ∃ r, x = (h.slab s).vaddress + r := ⟨x - (h.slab s).vaddress, by omega⟩
  refine ⟨?_, by omega⟩
  rw [ok.mapped]
  exact page_of_address (by omega)

theorem occupied_page {e : Nat × Nat} {i s j x : Nat} (ok : SlabOk h i s)
    (occupied : Occupied h e i s j) (within : Within e.1 (cacheSize i) x) :
    virtToPage x = (h.slab s).page ∧
      x < (h.slab s).vaddress + (h.slab s).colorCount * cacheSize i :=
  slot_page ok occupied.slot (occupied.address ▸ within)

/- Two slots with a common byte are one. -/
theorem slot_unique (inv : Inv boot pending extra h) {i s j k t l x : Nat} (hi : i < 16)
    (hk : k < 16) (hs : s ∈ ring h i) (ht : t ∈ ring h k) (slot : j < (h.slab s).colorCount)
    (other : l < (h.slab t).colorCount)
    (within : Within ((h.slab s).vaddress + cacheSize i * j) (cacheSize i) x)
    (common : Within ((h.slab t).vaddress + cacheSize k * l) (cacheSize k) x) :
    i = k ∧ s = t ∧ j = l := by
  have first := (slot_page (inv.slab_ok i hi s hs) slot within).1
  have second := (slot_page (inv.slab_ok k hk t ht) other common).1
  obtain ⟨rfl, rfl⟩ := inv.own i hi k hk s hs t ht (first.symm.trans second)
  refine ⟨rfl, rfl, ?_⟩
  have low := within.1
  have high := within.2
  have low' := common.1
  have high' := common.2
  rcases Nat.lt_trichotomy j l with below | same | above
  · have step := Nat.mul_le_mul_left (cacheSize i) (Nat.succ_le_of_lt below)
    rw [Nat.mul_succ] at step
    omega
  · exact same
  · have step := Nat.mul_le_mul_left (cacheSize i) (Nat.succ_le_of_lt above)
    rw [Nat.mul_succ] at step
    omega

theorem within_start {a n : Nat} (positive : 0 < n) : Within a n a := ⟨Nat.le_refl a, by omega⟩

theorem clear_slot_fresh (inv : Inv boot pending extra h) {i s j : Nat} (hi : i < 16)
    (hs : s ∈ ring h i) (slot : j < (h.slab s).colorCount)
    (clear : bit (h.slab s).colors j = false) :
    (h.slab s).vaddress + cacheSize i * j ∉ (extra ++ metas h).map Prod.fst := by
  intro member
  obtain ⟨e, held, same⟩ := List.mem_map.mp member
  obtain ⟨k, t, l, occupied⟩ := inv.occupied e held
  obtain ⟨rfl, rfl, rfl⟩ : i = k ∧ s = t ∧ j = l := by
    refine slot_unique inv hi occupied.cache hs occupied.listed slot occupied.slot
      (x := (h.slab s).vaddress + cacheSize i * j) (within_start (cacheSize_pos i)) ?_
    rw [← same, occupied.address]
    exact within_start (cacheSize_pos k)
  rw [occupied.taken] at clear
  cases clear

theorem meta_mem {i s : Nat} (hi : i < 16) (large : 5 ≤ i) (later : s ∈ h.others i) :
    (s, slabBytes) ∈ metas h ∧ ((h.slab s).colorMap, (h.slab s).colorLength) ∈ metas h := by
  have entry : ∀ e ∈ [(s, slabBytes), ((h.slab s).colorMap, (h.slab s).colorLength)],
      e ∈ metas h := by
    intro e member
    refine List.mem_flatMap.mpr ⟨i, List.mem_range.mpr hi, ?_⟩
    rw [metasOf, if_neg (by omega)]
    exact List.mem_flatMap.mpr ⟨s, later, member⟩
  exact ⟨entry _ (by simp), entry _ (by simp)⟩

theorem extra_meta_apart (inv : Inv boot pending extra h) {e m : Nat × Nat} {i s j : Nat}
    (member : e ∈ extra) (occupied : Occupied h e i s j) (held : m ∈ metas h) {x : Nat}
    (within : Within e.1 (cacheSize i) x) (common : Within m.1 m.2 x) : False := by
  obtain ⟨k, t, l, slot⟩ := inv.occupied m (List.mem_append_right _ held)
  have wide : Within m.1 (cacheSize k) x := ⟨common.1, by have := common.2; have := slot.fits; omega⟩
  obtain ⟨rfl, rfl, rfl⟩ := slot_unique inv occupied.cache slot.cache occupied.listed slot.listed
    occupied.slot slot.slot (occupied.address ▸ within) (slot.address ▸ wide)
  have same : e.1 = m.1 := occupied.address.trans slot.address.symm
  have distinct := inv.distinct
  rw [List.map_append, List.nodup_append] at distinct
  exact distinct.2.2 e.1 (List.mem_map_of_mem member) m.1 (List.mem_map_of_mem held) same

/-- A block shares no byte with the struct Slab or the color map of any slab. -/
theorem block_meta_apart (inv : Inv boot pending extra h) {e : Nat × Nat} {i s j : Nat}
    (member : e ∈ extra) (occupied : Occupied h e i s j) {k t : Nat} (hk : k < 16)
    (listed : t ∈ ring h k) :
    Apart (e.1, cacheSize i) (t, slabBytes) ∧
      Apart (e.1, cacheSize i) ((h.slab t).colorMap, (h.slab t).colorLength) := by
  have ok := inv.slab_ok i occupied.cache s occupied.listed
  have foreign : ∀ a n, BootBytes boot a n → Apart (e.1, cacheSize i) (a, n) := by
    rintro a n bytes x ⟨within, common⟩
    have page := (occupied_page ok occupied within).1
    have set_aside := (bytes x common).2
    rw [page] at set_aside
    exact (inv.reserved _ (Or.inl set_aside)).2 i occupied.cache s occupied.listed rfl
  rcases List.mem_cons.mp listed with rfl | later
  · exact ⟨foreign _ _ (inv.boot_struct k hk), foreign _ _ (inv.boot_map k hk)⟩
  · by_cases small : k < 5
    · have place := inv.in_page k small t later
      have tail : ∀ a n, t ≤ a → a + n ≤ (h.slab t).vaddress + pageSize →
          Apart (e.1, cacheSize i) (a, n) := by
        rintro a n low high x ⟨within, common⟩
        obtain ⟨page, below⟩ := occupied_page ok occupied within
        have okT := inv.slab_ok k hk t listed
        have struct := place.struct
        have slots := place.slots
        have fromA : a ≤ x := common.1
        have toA : x < a + n := common.2
        have pageT : virtToPage x = (h.slab t).page := by
          obtain ⟨r, rfl⟩ : ∃ r, x = (h.slab t).vaddress + r :=
            ⟨x - (h.slab t).vaddress, by omega⟩
          rw [okT.mapped]
          exact page_of_address (by rw [okT.mapped] at *; omega)
        obtain ⟨rfl, rfl⟩ := inv.own i occupied.cache k hk s occupied.listed t listed
          (page.symm.trans pageT)
        omega
      have struct := place.struct
      have map := place.map
      have length := place.mapLength
      unfold tailBytes at struct
      exact ⟨tail _ _ (Nat.le_refl t) (by omega), tail _ _ (by omega) (by omega)⟩
    · obtain ⟨structMem, mapMem⟩ := meta_mem hk (by omega) later
      exact ⟨fun x both => extra_meta_apart inv member occupied structMem both.1 both.2,
        fun x both => extra_meta_apart inv member occupied mapMem both.1 both.2⟩

end HeapInvariant

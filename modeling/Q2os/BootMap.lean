import Q2os.BootPages
import Q2os.ZoneAccounting

/- The bitmap and the counters of the zones after init_memory and slab_init, page by page, for any
   table that the BIOS can give. -/
namespace BootMap
open Bitmap PageAllocator PageRuns Kmalloc KmallocPages SlabInit ZoneAccounting

/-- An entry behind another begins where that one ends or above, and the last of them ends below the
last 2MB that an address can name. -/
structure Ascending (b : Machine) : Prop where
  apart : ∀ j ≤ lastEntry b.table 31 0, ∀ i < j,
    (b.table i).address + (b.table i).length ≤ (b.table j).address
  physical : ∀ i ≤ lastEntry b.table 31 0,
    (b.table i).address + (b.table i).length + pageSize ≤ 2 ^ 64

/- The pages of the zone that an entry makes. -/
def InRegion (e : E820) (p : Nat) : Prop :=
  isZone e ∧ regionStart e ≤ pageSize * p ∧ pageSize * p < regionEnd e

instance (e : E820) (p : Nat) : Decidable (InRegion e p) :=
  inferInstanceAs (Decidable (_ ∧ _ ∧ _))

/-- Page p lies in an entry of type 1 from its first byte to its last. -/
def InsideRam (e : E820) (p : Nat) : Prop :=
  e.type = 1 ∧ e.address ≤ pageSize * p ∧ pageSize * (p + 1) ≤ e.address + e.length

theorem region_iff {e : E820} (physical : e.address + e.length + pageSize ≤ 2 ^ 64) (p : Nat) :
    InRegion e p ↔ InsideRam e p := by
  unfold InRegion InsideRam isZone regionStart regionEnd page2MAlign
  unfold pageSize at *
  constructor
  · rintro ⟨⟨ram, _⟩, low, high⟩
    exact ⟨ram, by omega, by omega⟩
  · rintro ⟨ram, low, high⟩
    exact ⟨⟨ram, by omega⟩, by omega, by omega⟩

theorem inside_one {b : Machine} (ascending : Ascending b) {i j p : Nat}
    (small : i ≤ lastEntry b.table 31 0) (small' : j ≤ lastEntry b.table 31 0)
    (first : InsideRam (b.table i) p) (second : InsideRam (b.table j) p) : i = j := by
  have size : 0 < pageSize := by decide
  have next : pageSize * (p + 1) = pageSize * p + pageSize := Nat.mul_succ ..
  rcases Nat.lt_trichotomy i j with below | same | above
  · have apart := ascending.apart j small' i below
    have high := first.2.2
    have low := second.2.1
    omega
  · exact same
  · have apart := ascending.apart i small j above
    have high := second.2.2
    have low := first.2.1
    omega

theorem init_pages_page (g : Gmd) (zone j p : Nat) {start : Nat} (whole : pageSize ∣ start) :
    (initPages g zone start j).pages p =
      if Within (start / pageSize) j p then ⟨some zone, pageSize * p, 0, 0, 0⟩ else g.pages p := by
  induction j with
  | zero =>
    rw [if_neg (by unfold Within; omega)]
    rfl
  | succ j ih =>
    by_cases here : p = start / pageSize + j
    · have address : start + pageSize * j = pageSize * p := by
        rw [here, Nat.mul_add, Nat.mul_div_cancel' whole]
      rw [if_pos (by unfold Within; omega)]
      simp only [initPages, setBits, setPage, ← here, Function.update_self, address]
    · have same : Within (start / pageSize) (j + 1) p ↔ Within (start / pageSize) j p := by
        unfold Within
        omega
      simp only [same]
      rw [← ih]
      simp only [initPages, setBits, setPage, Function.update_of_ne here]

theorem init_pages_bit (g : Gmd) (zone start j p : Nat) :
    bit (initPages g zone start j).bitsMap p =
      if Within (start / pageSize) j p then !bit g.bitsMap p else bit g.bitsMap p := by
  induction j with
  | zero => rw [if_neg (by unfold Within; omega), initPages]
  | succ j ih =>
    have shifted : (start + pageSize * j) / pageSize = start / pageSize + j :=
      Nat.add_mul_div_left start j (by decide)
    simp only [initPages, setBits, setPage, bit_flipBit, shifted]
    by_cases here : start / pageSize + j = p
    · have before : ¬ Within (start / pageSize) j p := by unfold Within; omega
      rw [if_pos here, if_pos (by unfold Within; omega), ih, if_neg before]
    · have same : Within (start / pageSize) (j + 1) p ↔ Within (start / pageSize) j p := by
        unfold Within
        omega
      rw [if_neg here, ih]
      simp only [same]

/-- The zones of the first n entries, and the pages: those of a zone know it and their address and
are free, the others know neither and are in use. -/
structure Zoned (b : Machine) (n : Nat) (g : Gmd) : Prop where
  zones : ∀ (i : Nat) (z : Zone), g.zones[i]? = some z → startPage z < endPage z ∧
    z.pagesLength = endPage z - startPage z ∧ z.pageUsingCount = 0 ∧
    z.pageFreeCount = BitVec.ofNat 64 z.pagesLength
  owner : ∀ p i : Nat, (g.pages p).zoneStruct = some i ↔
    ∃ z, g.zones[i]? = some z ∧ startPage z ≤ p ∧ p < endPage z
  phys : ∀ p, (g.pages p).phyAddress = if (g.pages p).zoneStruct = none then 0 else pageSize * p
  ram : ∀ p, (g.pages p).zoneStruct ≠ none ↔ ∃ m < n, InsideRam (b.table m) p
  bits : ∀ p < 64 * (g.bitsLength / 8), bit g.bitsMap p = (g.pages p).zoneStruct.isNone

theorem empty_zoned (b : Machine) : Zoned b 0 (emptyGmd b) where
  zones := by
    intro i z entry
    cases entry
  owner := by
    intro p i
    constructor
    · intro owned
      cases owned
    · rintro ⟨z, entry, _⟩
      cases entry
  phys := fun p => rfl
  ram := by
    intro p
    constructor
    · exact fun owned => absurd rfl owned
    · rintro ⟨m, small, _⟩
      exact absurd small (Nat.not_lt_zero m)
  bits := by
    intro p small
    exact Bool.eq_true_of_not_eq_false (empty_set b p small)

theorem region_within {e : E820} (zone : isZone e) (p : Nat) :
    Within (regionStart e / pageSize) ((regionEnd e - regionStart e) / pageSize) p ↔ InRegion e p := by
  have longer := zone.2
  unfold InRegion Within
  unfold regionStart regionEnd page2MAlign at *
  unfold pageSize at *
  constructor
  · rintro ⟨low, high⟩
    exact ⟨zone, by omega, by omega⟩
  · rintro ⟨_, low, high⟩
    omega

def zoneOf (e : E820) : Zone :=
  let start := regionStart e
  let length := (regionEnd e - start) / pageSize
  ⟨start / pageSize, length, start, regionEnd e, regionEnd e - start, 0, 0, BitVec.ofNat 64 length, 0⟩

theorem zone_of_spans {e : E820} (zone : isZone e) :
    startPage (zoneOf e) < endPage (zoneOf e) ∧
      (zoneOf e).pagesLength = endPage (zoneOf e) - startPage (zoneOf e) ∧
      ∀ p, InRegion e p ↔ startPage (zoneOf e) ≤ p ∧ p < endPage (zoneOf e) := by
  have longer := zone.2
  unfold InRegion startPage endPage zoneOf
  dsimp only
  unfold regionStart regionEnd page2MAlign at *
  unfold pageSize at *
  refine ⟨by omega, by omega, fun p => ⟨?_, ?_⟩⟩
  · rintro ⟨_, low, high⟩
    omega
  · rintro ⟨low, high⟩
    exact ⟨zone, by omega, by omega⟩

theorem init_zone_eq (g : Gmd) {e : E820} (zone : isZone e) :
    initZone g e = initPages { g with zones := g.zones ++ [zoneOf e] } g.zones.length
      (regionStart e) ((regionEnd e - regionStart e) / pageSize) := if_pos zone

/-- What the zone of an entry changes. -/
structure ZoneMade (g g' : Gmd) (e : E820) : Prop where
  zones : g'.zones = g.zones ++ [zoneOf e]
  pages : ∀ p, g'.pages p =
    if InRegion e p then ⟨some g.zones.length, pageSize * p, 0, 0, 0⟩ else g.pages p
  bits : ∀ p, bit g'.bitsMap p = if InRegion e p then !bit g.bitsMap p else bit g.bitsMap p
  length : g'.bitsLength = g.bitsLength

theorem init_zone_made (g : Gmd) {e : E820} (zone : isZone e) : ZoneMade g (initZone g e) e := by
  have whole : pageSize ∣ regionStart e := Nat.dvd_mul_left ..
  rw [init_zone_eq g zone]
  refine ⟨init_pages_zones _ _ _ _, fun p => ?_, fun p => ?_, init_pages_length _ _ _ _⟩
  · rw [init_pages_page _ _ _ _ whole]
    simp only [region_within zone]
  · rw [init_pages_bit]
    simp only [region_within zone]

theorem zone_listed {zones : List Zone} {last : Zone} (i : Nat) (z : Zone) :
    (zones ++ [last])[i]? = some z ↔ zones[i]? = some z ∨ i = zones.length ∧ z = last := by
  rcases Nat.lt_trichotomy i zones.length with below | rfl | above
  · rw [List.getElem?_append_left below]
    exact (or_iff_left fun here => absurd here.1 (Nat.ne_of_lt below)).symm
  · rw [List.getElem?_concat_length, List.getElem?_eq_none (Nat.le_refl _)]
    simp [eq_comm]
  · have outside : (zones ++ [last]).length ≤ i := by
      rw [List.length_append, List.length_singleton]
      omega
    rw [List.getElem?_eq_none outside, List.getElem?_eq_none (Nat.le_of_lt above)]
    simp [Nat.ne_of_gt above]

theorem zone_made_zoned {b : Machine} {n : Nat} {g g' : Gmd} (ascending : Ascending b)
    (small : n ≤ lastEntry b.table 31 0) (zone : isZone (b.table n)) (zoned : Zoned b n g)
    (made : ZoneMade g g' (b.table n)) : Zoned b (n + 1) g' := by
  obtain ⟨extends_, length, spans⟩ := zone_of_spans zone
  have physical := ascending.physical n small
  -- the pages of the new zone were in none before
  have fresh : ∀ p, InRegion (b.table n) p → (g.pages p).zoneStruct = none := by
    intro p inside
    by_contra owned
    obtain ⟨m, below, other⟩ := (zoned.ram p).mp owned
    have same := inside_one ascending (by omega) small other ((region_iff physical p).mp inside)
    omega
  constructor
  · intro i z entry
    rw [made.zones] at entry
    rcases (zone_listed i z).mp entry with old | ⟨_, rfl⟩
    · exact zoned.zones i z old
    · exact ⟨extends_, length, rfl, rfl⟩
  · intro p i
    rw [made.pages, made.zones]
    by_cases inside : InRegion (b.table n) p
    · rw [if_pos inside]
      have within := (spans p).mp inside
      constructor
      · intro here
        cases here
        exact ⟨_, (zone_listed _ _).mpr (Or.inr ⟨rfl, rfl⟩), within⟩
      · rintro ⟨z, entry, span⟩
        rcases (zone_listed i z).mp entry with old | ⟨rfl, _⟩
        · have owned := (zoned.owner p i).mpr ⟨z, old, span⟩
          rw [fresh p inside] at owned
          cases owned
        · rfl
    · rw [if_neg inside, zoned.owner]
      constructor
      · rintro ⟨z, old, span⟩
        exact ⟨z, (zone_listed i z).mpr (Or.inl old), span⟩
      · rintro ⟨z, entry, span⟩
        rcases (zone_listed i z).mp entry with old | ⟨_, rfl⟩
        · exact ⟨z, old, span⟩
        · exact absurd ((spans p).mpr span) inside
  · intro p
    rw [made.pages]
    by_cases inside : InRegion (b.table n) p
    · rw [if_pos inside]
      rfl
    · rw [if_neg inside]
      exact zoned.phys p
  · intro p
    rw [made.pages]
    by_cases inside : InRegion (b.table n) p
    · rw [if_pos inside]
      have ram := (region_iff physical p).mp inside
      exact iff_of_true (fun none_ => by cases none_) ⟨n, Nat.lt_succ_self n, ram⟩
    · rw [if_neg inside, zoned.ram]
      constructor
      · rintro ⟨m, below, ram⟩
        exact ⟨m, by omega, ram⟩
      · rintro ⟨m, below, ram⟩
        by_cases last : m = n
        · rw [last] at ram
          exact absurd ((region_iff physical p).mpr ram) inside
        · exact ⟨m, by omega, ram⟩
  · intro p within
    rw [made.length] at within
    rw [made.pages, made.bits]
    by_cases inside : InRegion (b.table n) p
    · rw [if_pos inside, if_pos inside]
      have before := zoned.bits p within
      rw [fresh p inside] at before
      rw [before]
      rfl
    · rw [if_neg inside, if_neg inside]
      exact zoned.bits p within

theorem init_zones_zoned {b : Machine} (ascending : Ascending b) {n : Nat}
    (small : n ≤ lastEntry b.table 31 0 + 1) : Zoned b n (initZones (emptyGmd b) b.table n) := by
  induction n with
  | zero => exact empty_zoned b
  | succ n ih =>
    have zoned := ih (by omega)
    rw [initZones]
    by_cases zone : isZone (b.table n)
    · exact zone_made_zoned ascending (by omega) zone zoned (init_zone_made _ zone)
    · have same : ∀ g, initZone g (b.table n) = g := fun g => if_neg zone
      rw [same]
      refine ⟨zoned.zones, zoned.owner, zoned.phys, fun p => ?_, zoned.bits⟩
      rw [zoned.ram]
      constructor
      · rintro ⟨m, below, ram⟩
        exact ⟨m, by omega, ram⟩
      · rintro ⟨m, below, ram⟩
        refine ⟨m, ?_, ram⟩
        by_contra later
        have last : m = n := by omega
        rw [last] at ram
        exact zone ((region_iff (ascending.physical n (by omega)) p).mpr ram).1

/- A page of the boot goes into use: its bit and the counters of its zone. -/

def tally (z : Zone) : (Nat × Nat) × Nat × BitVec 64 × BitVec 64 :=
  (zoneSpan z, z.pagesLength, z.pageUsingCount, z.pageFreeCount)

def charge : (Nat × Nat) × Nat × BitVec 64 × BitVec 64 → (Nat × Nat) × Nat × BitVec 64 × BitVec 64
  | (span, length, used, free) => (span, length, used + 1, free - 1)

structure Marks (g g' : Gmd) (p : Nat) : Prop where
  layout : SameLayout g g'
  tallies : g'.zones.map tally =
    (updateZone g (g.pages p).zoneStruct countUsed).zones.map tally
  owner : ∀ q, (g'.pages q).zoneStruct = (g.pages q).zoneStruct
  bits : ∀ j, bit g'.bitsMap j =
    if (g.pages p).phyAddress / pageSize = j then true else bit g.bitsMap j

theorem page_init_map {β : Type} {k : Zone → β} (g : Gmd) (i : Nat) (flags : BitVec 64)
    (same : ∀ z, k (countLinked z) = k z) : (pageInit g i flags).zones.map k = g.zones.map k := by
  unfold pageInit
  dsimp only
  split
  · exact update_zone_map _ _ same
  · rfl

theorem page_init_owner (g : Gmd) (i p : Nat) (flags : BitVec 64) :
    ((pageInit g i flags).pages p).zoneStruct = (g.pages p).zoneStruct := by
  unfold pageInit
  by_cases here : p = i
  · rw [here]
    dsimp only
    split
    · rw [update_zone_pages]
      simp [setPage]
    · simp [setPage]
  · dsimp only
    split
    · rw [update_zone_pages]
      simp [setPage, here]
    · simp [setPage, here]

theorem count_used_tallies {g h : Gmd} (owner : Option Nat)
    (same : g.zones.map tally = h.zones.map tally) :
    (updateZone g owner countUsed).zones.map tally =
      (updateZone h owner countUsed).zones.map tally := by
  cases owner with
  | none => exact same
  | some i =>
    have agree : ∀ z, tally (countUsed z) = charge (tally z) := fun z => rfl
    simp only [updateZone, map_modify _ i agree, same]

theorem init_boot_page_marks (g : Gmd) (n : Nat) :
    Marks (initBootPages g n) (initBootPages g (n + 1)) (n + 1) := by
  have inited := page_init_layout (initBootPages g n) (n + 1)
    (pgPTableMaped ||| pgKernelInit ||| pgKernel)
  refine ⟨?_, ?_, fun q => ?_, fun j => ?_⟩
  · exact same_layout_trans (same_layout_trans inited (set_bits_layout _ _))
      (update_zone_layout _ _ countUsed (fun _ => rfl))
  · simp only [initBootPages, page_init_owner]
    exact count_used_tallies _ (page_init_map _ _ _ fun _ => rfl)
  · simp only [initBootPages, update_zone_pages, setBits, page_init_owner]
  · simp only [initBootPages, update_zone_bits, setBits, page_init_bits, bit_setBit, inited.phys]

theorem boot_page_marks (g : Gmd) (p : Nat) : Marks g (bootPage g p) p := by
  refine ⟨(boot_page_grows g p).layout, ?_, fun q => ?_, fun j => ?_⟩
  · unfold bootPage
    dsimp only
    rw [page_init_map _ _ _ fun _ => rfl]
    exact count_used_tallies _ rfl
  · unfold bootPage
    dsimp only
    rw [page_init_owner, update_zone_pages]
    rfl
  · rw [boot_page_bits, bit_setBit]

/-- The pages 1 to n are in use and the others that a zone has are free. Page 0 is in no counter:
nothing ever counts it. -/
structure Marked (b : Machine) (n : Nat) (g : Gmd) : Prop where
  spans : ∀ (i : Nat) (z : Zone), g.zones[i]? = some z → startPage z < endPage z ∧
    endPage z ≤ 64 * (g.bitsLength / 8) ∧ z.pagesLength = endPage z - startPage z ∧
    z.pagesLength < 2 ^ 64
  counters : ∀ (i : Nat) (z : Zone), g.zones[i]? = some z →
    z.pageUsingCount.toNat + z.pageFreeCount.toNat = z.pagesLength ∧
    z.pageUsingCount.toNat = setCount g.bitsMap (max 1 (startPage z)) (endPage z)
  owner : ∀ p i : Nat, 0 < p → ((g.pages p).zoneStruct = some i ↔
    ∃ z, g.zones[i]? = some z ∧ startPage z ≤ p ∧ p < endPage z)
  phys : ∀ p, 0 < p →
    (g.pages p).phyAddress = if (g.pages p).zoneStruct = none then 0 else pageSize * p
  ram : ∀ p, 0 < p → ((g.pages p).zoneStruct ≠ none ↔
    ∃ m ≤ lastEntry b.table 31 0, InsideRam (b.table m) p)
  bits : ∀ p < 64 * (g.bitsLength / 8), 0 < p →
    (bit g.bitsMap p = false ↔ (g.pages p).zoneStruct ≠ none ∧ n < p)
  first : (∃ m ≤ lastEntry b.table 31 0, InsideRam (b.table m) 0) ↔
    ∃ (i : Nat) (z : Zone), g.zones[i]? = some z ∧ startPage z = 0
  unzoned : 0 < 64 * (g.bitsLength / 8) →
    (¬ ∃ m ≤ lastEntry b.table 31 0, InsideRam (b.table m) 0) → bit g.bitsMap 0 = true

theorem marks_zone {g g' : Gmd} {p i : Nat} {z' : Zone} (marks : Marks g g' p)
    (entry : g'.zones[i]? = some z') : ∃ z, g.zones[i]? = some z ∧
      tally z' = if (g.pages p).zoneStruct = some i then charge (tally z) else tally z := by
  have at_i := congrArg (fun l : List ((Nat × Nat) × Nat × BitVec 64 × BitVec 64) => l[i]?)
    marks.tallies
  simp only [List.getElem?_map, entry, Option.map_some] at at_i
  obtain ⟨z₁, after, same⟩ := Option.map_eq_some_iff.mp at_i.symm
  obtain ⟨z, before, used⟩ := update_zone_entry after
  refine ⟨z, before, ?_⟩
  rw [← same, used]
  split <;> rfl

theorem set_count_le (m : Words) (start stop : Nat) : setCount m start stop ≤ stop - start := by
  have bound := @List.countP_le_length Nat (fun k => bit m (start + k)) (List.range (stop - start))
  rw [List.length_range] at bound
  exact bound

/- The bit that a page going into use sets: its own if a zone has it, else that of page 0. -/
theorem marks_bit {b : Machine} {n j : Nat} {g g' : Gmd} (marked : Marked b n g)
    (marks : Marks g g' (n + 1)) (later : 0 < j) : bit g'.bitsMap j =
      if (g.pages (n + 1)).zoneStruct ≠ none ∧ n + 1 = j then true else bit g.bitsMap j := by
  rw [marks.bits, marked.phys (n + 1) (Nat.succ_pos n)]
  by_cases owned : (g.pages (n + 1)).zoneStruct = none
  · rw [if_pos owned, if_neg (by rw [Nat.zero_div]; omega), if_neg (fun both => both.1 owned)]
  · rw [if_neg owned, Nat.mul_div_cancel_left _ (by decide)]
    by_cases here : n + 1 = j
    · rw [if_pos here, if_pos ⟨owned, here⟩]
    · rw [if_neg here, if_neg (fun both => here both.2)]

theorem marks_counters {b : Machine} {n i : Nat} {g g' : Gmd} {z z' : Zone}
    (marked : Marked b n g) (marks : Marks g g' (n + 1)) (entry : g.zones[i]? = some z)
    (after : tally z' = if (g.pages (n + 1)).zoneStruct = some i then charge (tally z) else tally z) :
    z'.pageUsingCount.toNat + z'.pageFreeCount.toNat = z.pagesLength ∧
      z'.pageUsingCount.toNat = setCount g'.bitsMap (max 1 (startPage z)) (endPage z) := by
  obtain ⟨total, used⟩ := marked.counters i z entry
  obtain ⟨_, held, length, sized⟩ := marked.spans i z entry
  by_cases owned : (g.pages (n + 1)).zoneStruct = some i
  · rw [if_pos owned] at after
    simp only [tally, charge, Prod.mk.injEq] at after
    obtain ⟨_, _, usedAfter, freeAfter⟩ := after
    have zoned : (g.pages (n + 1)).zoneStruct ≠ none := by simp [owned]
    obtain ⟨y, same, low, high⟩ := (marked.owner (n + 1) i (Nat.succ_pos n)).mp owned
    cases entry.symm.trans same
    have clear : bit g.bitsMap (n + 1) = false :=
      (marked.bits (n + 1) (by omega) (Nat.succ_pos n)).mpr ⟨zoned, Nat.lt_succ_self n⟩
    have grown : setCount g'.bitsMap (max 1 (startPage z)) (endPage z) =
        setCount g.bitsMap (max 1 (startPage z)) (endPage z) + 1 := by
      refine set_count_grows (by omega) high clear ?_ fun j other => ?_
      · rw [marks_bit marked marks (Nat.succ_pos n), if_pos ⟨zoned, rfl⟩]
      · rw [marks.bits, marked.phys (n + 1) (Nat.succ_pos n), if_neg zoned,
          Nat.mul_div_cancel_left _ (by decide), if_neg (Ne.symm other)]
    -- a page of the zone was free, so its counter was not 0
    have most := set_count_le g'.bitsMap (max 1 (startPage z)) (endPage z)
    have up := @count_up z.pageUsingCount (by omega)
    have down := @count_down z.pageFreeCount (by omega)
    rw [usedAfter, freeAfter, up, down, grown, used]
    exact ⟨by omega, rfl⟩
  · rw [if_neg owned] at after
    simp only [tally, Prod.mk.injEq] at after
    obtain ⟨_, _, usedAfter, freeAfter⟩ := after
    rw [usedAfter, freeAfter]
    refine ⟨total, used.trans (set_count_congr fun j low high => ?_).symm⟩
    rw [marks_bit marked marks (by omega), if_neg]
    rintro ⟨_, rfl⟩
    exact owned ((marked.owner (n + 1) i (Nat.succ_pos n)).mpr ⟨z, entry, by omega, high⟩)

theorem marks_marked {b : Machine} {n : Nat} {g g' : Gmd} (marked : Marked b n g)
    (marks : Marks g g' (n + 1)) : Marked b (n + 1) g' := by
  have entries : ∀ (i : Nat) (z' : Zone), g'.zones[i]? = some z' → ∃ z, g.zones[i]? = some z ∧
      tally z' = (if (g.pages (n + 1)).zoneStruct = some i then charge (tally z) else tally z) ∧
      startPage z' = startPage z ∧ endPage z' = endPage z ∧ z'.pagesLength = z.pagesLength := by
    intro i z' entry
    obtain ⟨z, before, after⟩ := marks_zone marks entry
    have fixed : zoneSpan z' = zoneSpan z ∧ z'.pagesLength = z.pagesLength := by
      split at after
      · exact ⟨congrArg Prod.fst after, congrArg (fun t => t.2.1) after⟩
      · exact ⟨congrArg Prod.fst after, congrArg (fun t => t.2.1) after⟩
    have spans := Prod.mk.inj fixed.1
    exact ⟨z, before, after, congrArg (· / pageSize) spans.1, congrArg (· / pageSize) spans.2,
      fixed.2⟩
  have kept : ∀ (i : Nat) (z : Zone), g.zones[i]? = some z → ∃ z', g'.zones[i]? = some z' ∧
      startPage z' = startPage z ∧ endPage z' = endPage z := by
    intro i z entry
    have size := congrArg List.length marks.layout.spans
    rw [List.length_map, List.length_map] at size
    have less := (List.getElem?_eq_some_iff.mp entry).1
    have entry' := List.getElem?_eq_getElem (l := g'.zones) (i := i) (by omega)
    obtain ⟨y, before, _, start, stop, _⟩ := entries i _ entry'
    cases entry.symm.trans before
    exact ⟨_, entry', start, stop⟩
  constructor
  · intro i z' entry
    obtain ⟨z, before, _, start, stop, length⟩ := entries i z' entry
    rw [start, stop, length, marks.layout.length]
    exact marked.spans i z before
  · intro i z' entry
    obtain ⟨z, before, after, start, stop, length⟩ := entries i z' entry
    rw [start, stop, length]
    exact marks_counters marked marks before after
  · intro p i later
    rw [marks.owner, marked.owner p i later]
    constructor
    · rintro ⟨z, entry, span⟩
      obtain ⟨z', entry', start, stop⟩ := kept i z entry
      exact ⟨z', entry', by rw [start, stop]; exact span⟩
    · rintro ⟨z', entry', span⟩
      obtain ⟨z, entry, _, start, stop, _⟩ := entries i z' entry'
      exact ⟨z, entry, by rw [← start, ← stop]; exact span⟩
  · intro p later
    rw [marks.layout.phys, marks.owner]
    exact marked.phys p later
  · intro p later
    rw [marks.owner]
    exact marked.ram p later
  · intro p within later
    rw [marks.layout.length] at within
    rw [marks_bit marked marks later, marks.owner]
    have before := marked.bits p within later
    split
    · next here =>
      exact iff_of_false (fun set => by cases set) fun both => by omega
    · next other =>
      rw [before]
      refine and_congr_right fun zoned => ⟨fun below => ?_, fun below => by omega⟩
      by_contra equal
      have same : n + 1 = p := by omega
      exact other ⟨same ▸ zoned, same⟩
  · rw [marked.first]
    constructor
    · rintro ⟨i, z, entry, zero⟩
      obtain ⟨z', entry', start, _⟩ := kept i z entry
      exact ⟨i, z', entry', start.trans zero⟩
    · rintro ⟨i, z', entry', zero⟩
      obtain ⟨z, entry, _, start, _⟩ := entries i z' entry'
      exact ⟨i, z, entry, start.symm.trans zero⟩
  · intro within none_
    rw [marks.layout.length] at within
    rw [marks.bits, marked.unzoned within none_]
    exact ite_self _

theorem zones_below {b : Machine} (ascending : Ascending b) {i : Nat}
    (small : i ≤ lastEntry b.table 31 0) : regionEnd (b.table i) ≤ totalMem b := by
  have below : (b.table i).address + (b.table i).length ≤
      (b.table (lastEntry b.table 31 0)).address + (b.table (lastEntry b.table 31 0)).length := by
    by_cases last : i = lastEntry b.table 31 0
    · rw [← last]
    · have apart := ascending.apart _ (Nat.le_refl _) i (by omega)
      omega
  have physical := ascending.physical _ (Nat.le_refl (lastEntry b.table 31 0))
  have size : 0 < pageSize := by decide
  unfold regionEnd totalMem
  rw [Nat.mod_eq_of_lt (by omega), Nat.mod_eq_of_lt (by omega)]
  exact Nat.le_trans (Nat.div_mul_le_self _ _) below

theorem zones_reach {b : Machine} (ascending : Ascending b) {i : Nat}
    (small : i ≤ lastEntry b.table 31 0) :
    regionEnd (b.table i) / pageSize ≤ 64 * (bitsLengthOf b / 8) := by
  have below := Nat.div_le_div_right (c := pageSize) (zones_below ascending small)
  unfold bitsLengthOf bitsSizeOf
  omega

theorem zones_made_marked {b : Machine} (ascending : Ascending b) : Marked b 0 (zonesMade b) := by
  have zoned := init_zones_zoned ascending (Nat.le_refl (lastEntry b.table 31 0 + 1))
  have laid := init_zones_laid (lastEntry b.table 31 0 + 1) (empty_laid b) fun i small _ =>
    zones_reach ascending (Nat.le_of_lt_succ small)
  have away : ∀ p, 0 < p → (zonesMade b).pages p =
      (initZones (emptyGmd b) b.table (lastEntry b.table 31 0 + 1)).pages p := by
    intro p later
    simp only [zonesMade, setPage, Function.update_of_ne (Nat.ne_of_gt later)]
  have zones : (zonesMade b).zones =
      (initZones (emptyGmd b) b.table (lastEntry b.table 31 0 + 1)).zones := rfl
  have bits : (zonesMade b).bitsMap =
      (initZones (emptyGmd b) b.table (lastEntry b.table 31 0 + 1)).bitsMap := rfl
  have length : (zonesMade b).bitsLength =
      (initZones (emptyGmd b) b.table (lastEntry b.table 31 0 + 1)).bitsLength := rfl
  have whole : (zonesMade b).bitsLength = bitsLengthOf b := init_zones_length _ _ _
  revert zoned laid away zones bits length
  generalize zonesMade b = g at *
  generalize initZones (emptyGmd b) b.table (lastEntry b.table 31 0 + 1) = made
  intro zoned laid away zones bits length
  have entries : ∀ m, m < lastEntry b.table 31 0 + 1 ↔ m ≤ lastEntry b.table 31 0 := fun m =>
    Nat.lt_succ_iff
  have small : 64 * (bitsLengthOf b / 8) < 2 ^ 64 := by
    have total : totalMem b < 2 ^ 64 := Nat.mod_lt _ (by decide)
    unfold bitsLengthOf bitsSizeOf pageSize
    omega
  constructor
  · intro i z entry
    rw [zones] at entry
    obtain ⟨extends_, pages, _⟩ := zoned.zones i z entry
    have held := laid.held i z entry
    rw [← length] at held
    exact ⟨extends_, held, pages, by omega⟩
  · intro i z entry
    rw [zones] at entry
    obtain ⟨_, pages, used, free⟩ := zoned.zones i z entry
    have held := laid.held i z entry
    rw [← length] at held
    rw [used, free, BitVec.toNat_ofNat, Nat.mod_eq_of_lt (by omega)]
    refine ⟨Nat.zero_add _, Eq.symm (List.countP_eq_zero.mpr fun k member => ?_)⟩
    have within := List.mem_range.mp member
    have owned := (zoned.owner (max 1 (startPage z) + k) i).mpr ⟨z, entry, by omega, by omega⟩
    rw [bits, zoned.bits _ (by omega), owned]
    simp
  · intro p i later
    rw [away p later, zones]
    exact zoned.owner p i
  · intro p later
    rw [away p later]
    exact zoned.phys p
  · intro p later
    rw [away p later, zoned.ram]
    simp only [entries]
  · intro p within later
    rw [away p later, bits, zoned.bits p (length ▸ within)]
    simp [later, Option.isNone_eq_false_iff, Option.isSome_iff_ne_none]
  · have ram := zoned.ram 0
    simp only [entries] at ram
    rw [← ram, zones]
    constructor
    · intro owned
      obtain ⟨i, here⟩ := Option.ne_none_iff_exists'.mp owned
      obtain ⟨z, entry, low, _⟩ := (zoned.owner 0 i).mp here
      exact ⟨i, z, entry, Nat.le_zero.mp low⟩
    · rintro ⟨i, z, entry, zero⟩
      have extends_ := (zoned.zones i z entry).1
      have owned := (zoned.owner 0 i).mpr ⟨z, entry, by omega, by omega⟩
      rw [owned]
      simp
  · intro within none_
    have ram := zoned.ram 0
    simp only [entries] at ram
    rw [← ram, not_not] at none_
    rw [bits, zoned.bits 0 (length ▸ within), none_]
    rfl

theorem init_boot_pages_marked {b : Machine} {g : Gmd} (marked : Marked b 0 g) (n : Nat) :
    Marked b n (initBootPages g n) := by
  induction n with
  | zero => exact marked
  | succ n ih => exact marks_marked ih (init_boot_page_marks g n)

theorem boot_range_marked {b : Machine} {g : Gmd} {first : Nat} (marked : Marked b first g)
    (n : Nat) : Marked b (first + n) (bootRange g (first + 1) n) := by
  induction n with
  | zero => exact marked
  | succ n ih =>
    have marks := boot_page_marks (bootRange g (first + 1) n) (first + 1 + n)
    rw [Nat.add_right_comm] at marks
    rw [bootRange, Nat.add_right_comm first 1 n]
    exact marks_marked ih marks

theorem init_pools_marked {b : Machine} {h : Heap} {first : Nat} (marked : Marked b first h.g)
    (next : ∀ i, poolPage h.g.endOfStruct i = first + 1 + i) (n : Nat) :
    Marked b (first + n) (initPools h n).g ∧ (initPools h n).g.endOfStruct = h.g.endOfStruct := by
  induction n with
  | zero => exact ⟨marked, rfl⟩
  | succ n ih =>
    obtain ⟨before, stop⟩ := ih
    have grows := boot_page_grows (initPools h n).g (poolPage h.g.endOfStruct n)
    have marks := boot_page_marks (initPools h n).g (poolPage h.g.endOfStruct n)
    rw [next n, Nat.add_right_comm] at marks
    rw [init_pools_succ h n (poolPage h.g.endOfStruct n) (poolAddress h.g.endOfStruct n)
      (by rw [stop]) rfl]
    refine ⟨?_, grows.stop.trans stop⟩
    dsimp only [setSlab]
    rw [next n, Nat.add_right_comm]
    exact marks_marked before marks

/- Where the structures end: never at the end of a page of 4KB, so the three loops over the pages of
the boot never meet in one page. -/

theorem last_entry_le (p : Nat → E820) (left i : Nat) : lastEntry p left i ≤ i + left := by
  induction left generalizing i with
  | zero => exact Nat.le_refl i
  | succ left ih =>
    rw [lastEntry]
    split
    · omega
    · have rest := ih (i + 1)
      omega

theorem init_zones_count (g : Gmd) (p : Nat → E820) (n : Nat) :
    (initZones g p n).zones.length ≤ g.zones.length + n := by
  induction n with
  | zero => exact Nat.le_refl _
  | succ n ih =>
    rw [initZones]
    by_cases zone : isZone (p n)
    · rw [(init_zone_made _ zone).zones, List.length_append, List.length_singleton]
      omega
    · have same : initZone (initZones g p n) (p n) = initZones g p n := if_neg zone
      rw [same]
      omega

theorem end_of_struct_eq (b : Machine) : (initMemory b).endOfStruct = endOfStructOf b
    (initZones (emptyGmd b) b.table (lastEntry b.table 31 0 + 1)).zones.length :=
  (init_boot_pages_grows (zonesMade b) (bootPages (zonesMade b).endOfStruct)).stop

theorem end_of_struct_bound (b : Machine) : (initMemory b).endOfStruct < 2 ^ 64 := by
  rw [end_of_struct_eq]
  exact Nat.lt_of_le_of_lt (Nat.div_mul_le_self _ _) (Nat.mod_lt _ (by decide))

theorem end_of_struct_offset (b : Machine) :
    ∃ zones ≤ 32, (initMemory b).endOfStruct % 4096 = 80 * zones + 256 := by
  have entries := last_entry_le b.table 31 0
  have count := init_zones_count (emptyGmd b) b.table (lastEntry b.table 31 0 + 1)
  have empty : (emptyGmd b).zones.length = 0 := rfl
  refine ⟨(initZones (emptyGmd b) b.table (lastEntry b.table 31 0 + 1)).zones.length, by omega, ?_⟩
  rw [end_of_struct_eq]
  unfold endOfStructOf
  dsimp only
  generalize page4KAlign (page4KAlign b.startBrk + bitsLengthOf b) + _ = pages
  unfold page4KAlign
  omega

theorem struct_end_shift {tmp : Nat} (aligned : 8 ∣ tmp) (i : Nat) :
    structEnd tmp i = tmp + structEnd 0 i := by
  induction i with
  | zero => rfl
  | succ i ih =>
    rw [structEnd, structEnd, ih]
    omega

theorem structures_size : structEnd 0 16 % 4096 = 3744 := by decide +kernel

/-- The kernel lies where it is linked, and the memory that the table describes reaches to the end of
the last boot slab. -/
structure Roomy (b : Machine) : Prop where
  linked : pageOffset + 0x100000 ≤ b.startBrk
  behind : b.startBrk ≤ (initMemory b).endOfStruct
  slabs : poolPage (structEnd (initMemory b).endOfStruct 16) 15 < bitsSizeOf b

/-- The loop of init_memory ends at the page where the structures end that it made, the first loop of
slab_init goes on behind it to the page where its own end, and the boot slabs follow. -/
structure Consecutive (tmp last : Nat) : Prop where
  stop : structEnd tmp 16 = last
  boot : bootPages tmp = virtToPage tmp
  first : (tmp - pageOffset + pageSize - 1) / pageSize = virtToPage tmp + 1
  pool : ∀ i, poolPage last i = virtToPage last + 1 + i
  order : virtToPage tmp ≤ virtToPage last
  inside : pageSize * virtToPage last < last - pageOffset

theorem round_up {a : Nat} (inside : a % 4096 ≠ 0) :
    (a + pageSize - 1) / pageSize = a / pageSize + 1 ∧ pageSize * (a / pageSize) < a := by
  unfold pageSize
  omega

theorem loops_consecutive {tmp zones size : Nat} (few : zones ≤ 32)
    (offset : tmp % 4096 = 80 * zones + 256) (low : pageOffset ≤ tmp) (bound : tmp < 2 ^ 64)
    (total : structEnd 0 16 = size) (rest : size % 4096 = 3744) :
    Consecutive tmp (tmp + size) := by
  obtain ⟨x, rfl⟩ := Nat.exists_eq_add_of_le low
  have page : ∀ y, virtToPage (pageOffset + y) = y / pageSize := by
    intro y
    rw [virtToPage, Nat.add_sub_cancel_left]
  have within : x % 4096 = 80 * zones + 256 ∧ x < 2 ^ 47 := by
    unfold pageOffset at offset bound
    omega
  have wrapped : (pageOffset + x + 2 ^ 64 - pageOffset) % 2 ^ 64 = x := by
    rw [Nat.add_assoc, Nat.add_sub_cancel_left]
    omega
  have direct : pageOffset ≤ pageOffset + x + size := by omega
  have stop : structEnd (pageOffset + x) 16 = pageOffset + x + size := by
    rw [struct_end_shift (by omega), total]
  obtain ⟨offset, small⟩ := within
  refine ⟨stop, ?_, ?_, fun i => ?_, ?_, ?_⟩
  · have few_pages : x / pageSize < 2 ^ 31 := by
      unfold pageSize
      omega
    have counted := Nat.lt_trans few_pages (show 2 ^ 31 < 2 ^ 32 by decide)
    rw [page, bootPages, wrapped, Nat.mod_eq_of_lt counted, if_pos few_pages]
  · rw [page, Nat.add_sub_cancel_left]
    exact (round_up (by omega)).1
  · rw [(pool_page_eq direct i).1, Nat.add_assoc, page, Nat.add_sub_cancel_left,
      (round_up (by omega)).1]
  · rw [Nat.add_assoc, page, page]
    exact Nat.div_le_div_right (Nat.le_add_right _ _)
  · rw [Nat.add_assoc, page, Nat.add_sub_cancel_left]
    exact (round_up (by omega)).2

theorem roomy_consecutive {b : Machine} (roomy : Roomy b) : Consecutive
    (initMemory b).endOfStruct (structEnd (initMemory b).endOfStruct 16) := by
  obtain ⟨zones, few, offset⟩ := end_of_struct_offset b
  have low := Nat.le_trans (Nat.le_trans (Nat.le_add_right _ _) roomy.linked) roomy.behind
  have consecutive := loops_consecutive few offset low (end_of_struct_bound b) rfl structures_size
  rw [consecutive.stop]
  exact consecutive

/-- What slab_init makes of the pages that init_memory left. -/
structure SlabsBooted (b : Machine) (stop : Nat) (h : Heap) : Prop where
  marked : Marked b (virtToPage stop + 16) h.g
  ends : h.g.endOfStruct = stop
  pool : ∀ i < 16, (h.slab (h.pool i)).page = virtToPage stop + 1 + i

theorem pages_moved {g : Gmd} (stop : Nat) (pages : Pages g) :
    Pages { g with endOfStruct := stop } :=
  ⟨pages.extend, pages.held, pages.backed⟩

theorem marked_moved {b : Machine} {n : Nat} {g : Gmd} (stop : Nat) (marked : Marked b n g) :
    Marked b n { g with endOfStruct := stop } :=
  ⟨marked.spans, marked.counters, marked.owner, marked.phys, marked.ram, marked.bits, marked.first,
    marked.unzoned⟩

theorem slab_pages_booted {b : Machine} {g : Gmd} {stop : Nat}
    (consecutive : Consecutive g.endOfStruct stop) (marked : Marked b (virtToPage g.endOfStruct) g)
    (pages : Pages g) (inside : ∀ i < 16, poolPage stop i < 64 * (g.bitsLength / 8)) :
    SlabsBooted b stop (slabInit g) := by
  have made := init_caches_made g 16
  have order := consecutive.order
  have count : virtToPage stop + 1 - (virtToPage g.endOfStruct + 1) =
      virtToPage stop - virtToPage g.endOfStruct := by omega
  unfold slabInit
  dsimp only
  revert made
  generalize initCaches (emptyHeap g) 16 = h
  intro made
  have ends : h.g.endOfStruct = stop := by
    rw [made.made]
    exact consecutive.stop
  have distinct : ∀ i k, i < 16 → k < 16 → h.pool i = h.pool k → i = k := by
    intro i k hi hk same
    rw [made.pool i hi, made.pool k hk] at same
    exact struct_end_injective same
  have same : Pages h.g ∧ Marked b (virtToPage g.endOfStruct) h.g ∧ h.g.bitsLength = g.bitsLength := by
    rw [made.made]
    exact ⟨pages_moved _ pages, marked_moved _ marked, rfl⟩
  rw [ends, consecutive.first, count]
  have grows := boot_range_grows h.g (virtToPage g.endOfStruct + 1)
    (virtToPage stop - virtToPage g.endOfStruct)
  have ranged := boot_range_marked same.2.1 (virtToPage stop - virtToPage g.endOfStruct)
  rw [Nat.add_sub_cancel' order] at ranged
  revert grows ranged
  generalize bootRange h.g (virtToPage g.endOfStruct + 1)
    (virtToPage stop - virtToPage g.endOfStruct) = g₁
  intro grows ranged
  have ends₁ : g₁.endOfStruct = stop := grows.stop.trans ends
  have placed : ∀ i < 16, poolPage g₁.endOfStruct i < 64 * (g₁.bitsLength / 8) := by
    intro i small
    rw [ends₁, grows.layout.length, same.2.2]
    exact inside i small
  have pools := @init_pools_made { h with g := g₁ } 16 (grows_pages grows same.1) distinct placed
  have last := @init_pools_marked b { h with g := g₁ } (virtToPage stop) ranged
    (by rw [ends₁]; exact consecutive.pool) 16
  refine ⟨last.1, last.2.trans ends₁, fun i small => ?_⟩
  rw [pools.pool, pools.slab i small]
  dsimp only
  rw [ends₁]
  exact consecutive.pool i

theorem slabs_booted {b : Machine} (ascending : Ascending b) (roomy : Roomy b) :
    SlabsBooted b (structEnd (initMemory b).endOfStruct 16) (slabInit (initMemory b)) := by
  have consecutive := roomy_consecutive roomy
  have grows := init_boot_pages_grows (zonesMade b) (bootPages (zonesMade b).endOfStruct)
  have marked := init_boot_pages_marked (zones_made_marked ascending)
    (bootPages (zonesMade b).endOfStruct)
  rw [← init_memory_eq] at grows marked
  rw [← grows.stop, consecutive.boot] at marked
  have backed := grows_backed grows (zones_made_backed b)
  have length : (initMemory b).bitsLength = bitsLengthOf b := by
    rw [grows.layout.length]
    exact init_zones_length _ _ _
  have slabs := roomy.slabs
  have inside : ∀ i < 16, poolPage (structEnd (initMemory b).endOfStruct 16) i <
      64 * ((initMemory b).bitsLength / 8) := by
    intro i small
    rw [consecutive.pool] at slabs ⊢
    rw [length]
    unfold bitsLengthOf
    omega
  have laid : Laid (initMemory b) := by
    refine init_memory_laid ⟨fun i small _ => zones_below ascending small, ?_⟩
    have order := consecutive.order
    rw [consecutive.pool] at slabs
    rw [consecutive.boot]
    omega
  exact slab_pages_booted consecutive marked ⟨laid.extend, laid.held, backed⟩ inside

/- What is in memory after the boot: the image of the kernel from 1MB on, the structures behind it and
the pages of the boot slabs. -/

def KernelImage (b : Machine) (x : Nat) : Prop := 0x100000 ≤ x ∧ pageOffset + x < b.startBrk

def BootStructures (b : Machine) (x : Nat) : Prop :=
  b.startBrk ≤ pageOffset + x ∧ pageOffset + x < (slabInit (initMemory b)).g.endOfStruct

def BootSlab (b : Machine) (p : Nat) : Prop :=
  ∃ i < 16, ((slabInit (initMemory b)).slab ((slabInit (initMemory b)).pool i)).page = p

def TakenAtBoot (b : Machine) (p : Nat) : Prop :=
  (∃ x, x / pageSize = p ∧ (KernelImage b x ∨ BootStructures b x)) ∨ BootSlab b p

/-- A bit of the map is clear if its page lies inside an entry of type 1 and nothing is in it. -/
def MapRight (b : Machine) : Prop :=
  ∀ p < 64 * ((slabInit (initMemory b)).g.bitsLength / 8),
    bit (slabInit (initMemory b)).g.bitsMap p = false ↔
      (∃ m ≤ lastEntry b.table 31 0, InsideRam (b.table m) p) ∧ ¬ TakenAtBoot b p

def clearCount (m : Words) (start stop : Nat) : Nat :=
  (List.range (stop - start)).countP fun k => !bit m (start + k)

/-- The counters of a zone are the numbers of the set and of the clear bits of its pages. -/
def CountersRight (b : Machine) : Prop :=
  ∀ (i : Nat) (z : Zone), (slabInit (initMemory b)).g.zones[i]? = some z →
    z.pageUsingCount.toNat =
        setCount (slabInit (initMemory b)).g.bitsMap (startPage z) (endPage z) ∧
      z.pageFreeCount.toNat =
        clearCount (slabInit (initMemory b)).g.bitsMap (startPage z) (endPage z)

theorem clear_count_eq (m : Words) (start stop : Nat) :
    setCount m start stop + clearCount m start stop = stop - start := by
  have total := List.length_eq_countP_add_countP (fun k => bit m (start + k))
    (l := List.range (stop - start))
  rw [List.length_range] at total
  rw [total]
  unfold setCount clearCount
  simp

theorem set_count_first {m : Words} {stop : Nat} (later : 0 < stop) (set : bit m 0 = true) :
    setCount m 0 stop = setCount m 1 stop + 1 := by
  obtain ⟨n, rfl⟩ := Nat.exists_eq_succ_of_ne_zero (Nat.ne_of_gt later)
  unfold setCount
  rw [Nat.sub_zero, Nat.succ_eq_add_one, Nat.add_sub_cancel, List.range_succ_eq_map,
    List.countP_cons, List.countP_map]
  simp only [Function.comp_def, Nat.zero_add, set, if_pos, Nat.succ_eq_add_one, Nat.add_comm 1]

theorem taken_iff {b : Machine} (ascending : Ascending b) (roomy : Roomy b) (p : Nat) :
    TakenAtBoot b p ↔ p ≤ virtToPage (structEnd (initMemory b).endOfStruct 16) + 16 := by
  have booted := slabs_booted ascending roomy
  have inside := (roomy_consecutive roomy).inside
  have longer := @struct_end_apart (initMemory b).endOfStruct 0 16 (by decide)
  have start := Nat.le_trans roomy.behind (le_struct_end (initMemory b).endOfStruct 0)
  have behind := Nat.lt_of_le_of_lt start longer
  have linked := roomy.linked
  unfold TakenAtBoot KernelImage BootStructures BootSlab
  rw [booted.ends]
  clear longer start
  revert booted inside behind
  generalize structEnd (initMemory b).endOfStruct 16 = stop
  intro booted inside behind
  constructor
  · rintro (⟨x, rfl, image | structures⟩ | ⟨i, small, here⟩)
    · have page : x / pageSize ≤ virtToPage stop := Nat.div_le_div_right (by omega)
      omega
    · have page : x / pageSize ≤ virtToPage stop := Nat.div_le_div_right (by omega)
      omega
    · rw [booted.pool i small] at here
      omega
  · intro below
    by_cases slab : virtToPage stop < p
    · refine Or.inr ⟨p - virtToPage stop - 1, by omega, ?_⟩
      rw [booted.pool _ (by omega)]
      omega
    · -- the first byte of the page, or that of the image in page 0
      have byte : ∃ x, x / pageSize = p ∧ 0x100000 ≤ x ∧ pageOffset + x < stop := by
        by_cases first : p = 0
        · exact ⟨0x100000, by rw [first]; decide, Nat.le_refl _, Nat.lt_of_le_of_lt linked behind⟩
        · have least : pageSize * 1 ≤ pageSize * p := Nat.mul_le_mul_left _ (by omega)
          have most := Nat.mul_le_mul_left pageSize (Nat.le_of_not_lt slab)
          refine ⟨pageSize * p, Nat.mul_div_cancel_left p (by decide), ?_, by omega⟩
          exact Nat.le_trans (by decide) least
      obtain ⟨x, page, low, high⟩ := byte
      refine Or.inl ⟨x, page, ?_⟩
      by_cases image : pageOffset + x < b.startBrk
      · exact Or.inl ⟨low, image⟩
      · exact Or.inr ⟨by omega, high⟩

theorem marked_counters {b : Machine} {n i : Nat} {g : Gmd} {z : Zone} (marked : Marked b n g)
    (entry : g.zones[i]? = some z) (above : startPage z ≠ 0) :
    z.pageUsingCount.toNat = setCount g.bitsMap (startPage z) (endPage z) ∧
      z.pageFreeCount.toNat = clearCount g.bitsMap (startPage z) (endPage z) := by
  obtain ⟨total, used⟩ := marked.counters i z entry
  obtain ⟨_, _, length, _⟩ := marked.spans i z entry
  have start : max 1 (startPage z) = startPage z := by omega
  rw [start] at used
  have clear := clear_count_eq g.bitsMap (startPage z) (endPage z)
  exact ⟨used, by omega⟩

theorem first_page_uncounted {b : Machine} {n i : Nat} {g : Gmd} {z : Zone} (marked : Marked b n g)
    (entry : g.zones[i]? = some z) (zero : startPage z = 0) (set : bit g.bitsMap 0 = true) :
    z.pageUsingCount.toNat ≠ setCount g.bitsMap (startPage z) (endPage z) := by
  have used := (marked.counters i z entry).2
  have longer := (marked.spans i z entry).1
  have start : max 1 (startPage z) = 1 := by omega
  rw [start] at used
  rw [zero, set_count_first (by omega) set, ← used]
  exact Nat.ne_of_lt (Nat.lt_succ_self _)

/- A zone with page 0: the page is in use, but either its bit is clear or no counter knows of it. -/
theorem low_ram_wrong {b : Machine} (ascending : Ascending b) (roomy : Roomy b)
    (low : ∃ m ≤ lastEntry b.table 31 0, InsideRam (b.table m) 0) :
    ¬ (MapRight b ∧ CountersRight b) := by
  rintro ⟨map, counters⟩
  have marked := (slabs_booted ascending roomy).marked
  have taken := (taken_iff ascending roomy 0).mpr (Nat.zero_le _)
  obtain ⟨i, z, entry, zero⟩ := marked.first.mp low
  obtain ⟨longer, held, _⟩ := marked.spans i z entry
  refine first_page_uncounted marked entry zero ?_ (counters i z entry).1
  refine Bool.eq_true_of_not_eq_false fun clear => ?_
  exact ((map 0 (by omega)).mp clear).2 taken

/-- After the boot the map and the counters are right if and only if no entry of type 1 has all of the
lowest 2MB. -/
theorem boot_map_iff {b : Machine} (ascending : Ascending b) (roomy : Roomy b) :
    MapRight b ∧ CountersRight b ↔
      ¬ ∃ m ≤ lastEntry b.table 31 0, InsideRam (b.table m) 0 := by
  have marked := (slabs_booted ascending roomy).marked
  refine ⟨fun right low => low_ram_wrong ascending roomy low right, fun low => ⟨?_, ?_⟩⟩
  · intro p within
    rw [taken_iff ascending roomy]
    by_cases first : p = 0
    · have set := marked.unzoned (by omega) low
      rw [first, set]
      exact iff_of_false (fun set => by cases set) fun both => low both.1
    · have later : 0 < p := Nat.pos_of_ne_zero first
      have clear := marked.bits p within later
      have ram := marked.ram p later
      rw [clear, ram, Nat.not_le]
  · intro i z entry
    refine marked_counters marked entry fun zero => ?_
    exact low (marked.first.mpr ⟨i, z, entry, zero⟩)

theorem boot_map_128 : MapRight machine128 ∧ CountersRight machine128 := by
  have ascending : Ascending machine128 := ⟨by decide +kernel, by decide +kernel⟩
  have roomy : Roomy machine128 := ⟨by decide +kernel, by decide +kernel, by decide +kernel⟩
  refine (boot_map_iff ascending roomy).mpr ?_
  unfold InsideRam
  decide +kernel

def lowRam : Machine :=
  { machine128 with table := fun i => if i = 0 then ⟨0, 0x8000000, 1⟩ else ⟨0, 0, 0⟩ }

theorem kernel_page_free : Ascending lowRam ∧ Roomy lowRam ∧
    ¬ (MapRight lowRam ∧ CountersRight lowRam) := by
  have ascending : Ascending lowRam := ⟨by decide +kernel, by decide +kernel⟩
  have roomy : Roomy lowRam := ⟨by decide +kernel, by decide +kernel, by decide +kernel⟩
  refine ⟨ascending, roomy, low_ram_wrong ascending roomy ⟨0, Nat.zero_le _, ?_⟩⟩
  exact ⟨rfl, Nat.le_refl 0, by decide +kernel⟩

end BootMap

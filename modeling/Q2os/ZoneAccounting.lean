import Q2os.PageRuns

/- The counters of the zones. alloc_pages charges the zone that it scans and free_pages credits
   the zone of each page, so they agree as long as every run stays in the scanned zone. -/
namespace ZoneAccounting
open Bitmap PageAllocator PageSearch PageRuns Run

def setCount (m : Words) (start stop : Nat) : Nat :=
  (List.range (stop - start)).countP fun k => bit m (start + k)

/-- The counters of every zone add up to its length and agree with the bitmap. -/
def Counted (g : Gmd) : Prop :=
  ∀ (i : Nat) (z : Zone), g.zones[i]? = some z →
    z.pageUsingCount.toNat + z.pageFreeCount.toNat = z.pagesLength ∧
      z.pageUsingCount.toNat = setCount g.bitsMap (startPage z) (endPage z)

/-- The pages of a zone point to it, and its length is an unsigned long. -/
structure Owned (g : Gmd) : Prop where
  owner : ∀ (i : Nat) (z : Zone) (p : Nat), g.zones[i]? = some z → startPage z ≤ p →
    p < endPage z → (g.pages p).zoneStruct = some i
  sized : ∀ (i : Nat) (z : Zone), g.zones[i]? = some z → z.pagesLength < 2 ^ 64

/- The run that the search finds ends inside the zone in which it was found. -/
def InScannedZone (h : Usage) : Event → Prop
  | .alloc zoneSelect number _ =>
    ∀ first stop attr i page z, zoneRange h.g zoneSelect = some (first, stop, attr) →
      FirstCandidate h.g number.toNat first stop i page → h.g.zones[i]? = some z →
      page + number.toNat ≤ endPage z
  | _ => True

theorem count_congr {m m' : Words} {start n : Nat}
    (same : ∀ j, start ≤ j → j < start + n → bit m' j = bit m j) :
    (List.range n).countP (fun k => bit m' (start + k)) =
      (List.range n).countP (fun k => bit m (start + k)) := by
  apply List.countP_congr
  intro k member
  have small := List.mem_range.mp member
  rw [same (start + k) (by omega) (by omega)]

theorem set_count_congr {m m' : Words} {start stop : Nat}
    (same : ∀ j, start ≤ j → j < stop → bit m' j = bit m j) :
    setCount m' start stop = setCount m start stop :=
  count_congr fun j low high => same j low (by omega)

theorem count_grows {m m' : Words} {start n p : Nat} (low : start ≤ p) (high : p < start + n)
    (clear : bit m p = false) (taken : bit m' p = true)
    (same : ∀ j, j ≠ p → bit m' j = bit m j) :
    (List.range n).countP (fun k => bit m' (start + k)) =
      (List.range n).countP (fun k => bit m (start + k)) + 1 := by
  induction n with
  | zero => omega
  | succ n ih =>
    rw [List.range_succ, List.countP_append, List.countP_append, List.countP_singleton,
      List.countP_singleton]
    by_cases last : p = start + n
    · have before : (List.range n).countP (fun k => bit m' (start + k)) =
          (List.range n).countP (fun k => bit m (start + k)) :=
        count_congr fun j _ below => same j (by omega)
      rw [before, ← last, taken, clear]
      simp
    · rw [ih (by omega), same (start + n) (Ne.symm last)]
      omega

theorem set_count_grows {m m' : Words} {start stop p : Nat} (low : start ≤ p) (high : p < stop)
    (clear : bit m p = false) (taken : bit m' p = true)
    (same : ∀ j, j ≠ p → bit m' j = bit m j) :
    setCount m' start stop = setCount m start stop + 1 :=
  count_grows low (by omega) clear taken same

theorem count_up {x : BitVec 64} (room : x.toNat + 1 < 2 ^ 64) : (x + 1).toNat = x.toNat + 1 := by
  have one : (1 : BitVec 64).toNat = 1 := rfl
  rw [BitVec.toNat_add, one, Nat.mod_eq_of_lt room]

theorem count_down {x : BitVec 64} (positive : 0 < x.toNat) : (x - 1).toNat = x.toNat - 1 := by
  have one : (1 : BitVec 64).toNat = 1 := rfl
  have bound := x.isLt
  rw [BitVec.toNat_sub, one]
  omega

/- What the loops of alloc_pages and free_pages do with one page p. -/

structure PageStep (g g' : Gmd) (i p : Nat) (f : Zone → Zone) (value : Bool) : Prop where
  zones : g'.zones = g.zones.modify i f
  owner : ∀ q, (g'.pages q).zoneStruct = (g.pages q).zoneStruct
  bits : ∀ j, bit g'.bitsMap j = if p = j then value else bit g.bitsMap j

theorem zone_after {g g' : Gmd} {i p k : Nat} {f : Zone → Zone} {value : Bool} {z' : Zone}
    (step : PageStep g g' i p f value) (entry : g'.zones[k]? = some z') :
    ∃ z, g.zones[k]? = some z ∧ z' = if i = k then f z else z := by
  rw [step.zones] at entry
  exact modify_entry entry

theorem owned_step {g g' : Gmd} {i p : Nat} {f : Zone → Zone} {value : Bool} (owned : Owned g)
    (step : PageStep g g' i p f value) (span : ∀ z, zoneSpan (f z) = zoneSpan z)
    (length : ∀ z, (f z).pagesLength = z.pagesLength) : Owned g' := by
  constructor
  · intro k z' q entry low high
    obtain ⟨z, before, after⟩ := zone_after step entry
    have same : zoneSpan z' = zoneSpan z := by
      rw [after]
      split
      · exact span z
      · rfl
    unfold zoneSpan at same
    obtain ⟨starts, ends⟩ := Prod.mk.inj same
    unfold startPage at low
    unfold endPage at high
    rw [starts] at low
    rw [ends] at high
    rw [step.owner]
    exact owned.owner k z q before low high
  · intro k z' entry
    obtain ⟨z, before, after⟩ := zone_after step entry
    rw [after]
    split
    · rw [length]
      exact owned.sized k z before
    · exact owned.sized k z before

theorem counted_elsewhere {g g' : Gmd} {i p k : Nat} {f : Zone → Zone} {value : Bool}
    {z y : Zone} (counted : Counted g) (owned : Owned g) (step : PageStep g g' i p f value)
    (entry : g.zones[i]? = some z) (low : startPage z ≤ p) (high : p < endPage z)
    (other : g.zones[k]? = some y) (different : i ≠ k) :
    y.pageUsingCount.toNat + y.pageFreeCount.toNat = y.pagesLength ∧
      y.pageUsingCount.toNat = setCount g'.bitsMap (startPage y) (endPage y) := by
  obtain ⟨length, used⟩ := counted k y other
  refine ⟨length, used.trans (set_count_congr fun j from_y to_y => ?_).symm⟩
  rw [step.bits, if_neg]
  rintro rfl
  have one := owned.owner i z p entry low high
  have two := owned.owner k y p other from_y to_y
  exact different (Option.some.inj (one.symm.trans two))

theorem counted_used {g g' : Gmd} {i p : Nat} {z : Zone} (counted : Counted g) (owned : Owned g)
    (step : PageStep g g' i p countUsed true) (entry : g.zones[i]? = some z)
    (low : startPage z ≤ p) (high : p < endPage z) (clear : bit g.bitsMap p = false)
    (free : 0 < z.pageFreeCount.toNat) : Counted g' := by
  intro k z' after
  obtain ⟨y, before, rfl⟩ := zone_after step after
  by_cases here : i = k
  · subst here
    cases entry.symm.trans before
    rw [if_pos rfl]
    obtain ⟨length, used⟩ := counted i z entry
    have size := owned.sized i z entry
    have grown : setCount g'.bitsMap (startPage z) (endPage z) =
        setCount g.bitsMap (startPage z) (endPage z) + 1 := by
      refine set_count_grows low high clear ?_ ?_
      · rw [step.bits, if_pos rfl]
      · intro j other
        rw [step.bits, if_neg (Ne.symm other)]
    have used' : (countUsed z).pageUsingCount.toNat = z.pageUsingCount.toNat + 1 :=
      count_up (by omega)
    have free' : (countUsed z).pageFreeCount.toNat = z.pageFreeCount.toNat - 1 := count_down free
    rw [used', free']
    refine ⟨?_, ?_⟩
    · change _ = z.pagesLength
      omega
    · change _ = setCount g'.bitsMap (startPage z) (endPage z)
      omega
  · rw [if_neg here]
    exact counted_elsewhere counted owned step entry low high before here

theorem counted_freed {g g' : Gmd} {i p : Nat} {z : Zone} (counted : Counted g) (owned : Owned g)
    (step : PageStep g g' i p countFreed false) (entry : g.zones[i]? = some z)
    (low : startPage z ≤ p) (high : p < endPage z) (taken : bit g.bitsMap p = true) :
    Counted g' := by
  intro k z' after
  obtain ⟨y, before, rfl⟩ := zone_after step after
  by_cases here : i = k
  · subst here
    cases entry.symm.trans before
    rw [if_pos rfl]
    obtain ⟨length, used⟩ := counted i z entry
    have size := owned.sized i z entry
    have shrunk : setCount g.bitsMap (startPage z) (endPage z) =
        setCount g'.bitsMap (startPage z) (endPage z) + 1 := by
      refine set_count_grows low high ?_ taken ?_
      · rw [step.bits, if_pos rfl]
      · intro j other
        rw [step.bits, if_neg (Ne.symm other)]
    have used' : (countFreed z).pageUsingCount.toNat = z.pageUsingCount.toNat - 1 :=
      count_down (by omega)
    have free' : (countFreed z).pageFreeCount.toNat = z.pageFreeCount.toNat + 1 :=
      count_up (by omega)
    rw [used', free']
    refine ⟨?_, ?_⟩
    · change _ = z.pagesLength
      omega
    · change _ = setCount g'.bitsMap (startPage z) (endPage z)
      omega
  · rw [if_neg here]
    exact counted_elsewhere counted owned step entry low high before here

theorem set_page_owner {g : Gmd} {i : Nat} {p : Page}
    (same : p.zoneStruct = (g.pages i).zoneStruct) (q : Nat) :
    ((setPage g i p).pages q).zoneStruct = (g.pages q).zoneStruct := by
  by_cases here : q = i
  · subst here
    simpa [setPage] using same
  · simp [setPage, here]

theorem take_page_step {g : Gmd} {i page l : Nat} {attr : BitVec 64}
    (right : (g.pages (page + l)).phyAddress / pageSize = page + l) :
    PageStep (takePages g i attr page l) (takePages g i attr page (l + 1)) i (page + l) countUsed
      true := by
  have address := (take_pages_layout g i attr page l).phys (page + l)
  constructor
  · rfl
  · exact set_page_owner rfl
  · intro j
    change bit (setBit (takePages g i attr page l).bitsMap
      (((takePages g i attr page l).pages (page + l)).phyAddress / pageSize)) j = _
    rw [address, right, bit_setBit]

theorem release_owner (g : Gmd) (page n q : Nat) :
    ((releasePages g page n).pages q).zoneStruct = (g.pages q).zoneStruct := by
  induction n with
  | zero => rfl
  | succ n ih =>
    simp only [releasePages]
    rw [set_page_owner (by rw [update_zone_pages]; rfl), update_zone_pages]
    exact ih

theorem release_page_step {g : Gmd} {i page l : Nat}
    (right : (g.pages (page + l)).phyAddress / pageSize = page + l)
    (owner : (g.pages (page + l)).zoneStruct = some i) :
    PageStep (releasePages g page l) (releasePages g page (l + 1)) i (page + l) countFreed
      false := by
  have address := (release_pages_layout g page l).phys (page + l)
  have zone : ((releasePages g page l).pages (page + l)).zoneStruct = some i :=
    (release_owner g page l (page + l)).trans owner
  constructor
  · simp only [releasePages, zone]
    rfl
  · intro q
    rw [release_owner, release_owner]
  · intro j
    have stored : (releasePages g page (l + 1)).bitsMap = clearBit (releasePages g page l).bitsMap
        (((releasePages g page l).pages (page + l)).phyAddress / pageSize) := by
      simp only [releasePages, setPage, update_zone_bits]
      rfl
    rw [stored, address, right, bit_clearBit]

theorem take_counted {g : Gmd} {i page n : Nat} {z : Zone} {attr : BitVec 64} (laid : Laid g)
    (owned : Owned g) (counted : Counted g) (entry : g.zones[i]? = some z)
    (low : startPage z ≤ page) (high : page + n ≤ endPage z) (clear : Clear g.bitsMap page n)
    (free : n ≤ z.pageFreeCount.toNat) {l : Nat} (part : l ≤ n) :
    Owned (takePages g i attr page l) ∧ Counted (takePages g i attr page l) ∧
      ∃ y, (takePages g i attr page l).zones[i]? = some y ∧ zoneSpan y = zoneSpan z ∧
        y.pageFreeCount.toNat + l = z.pageFreeCount.toNat := by
  induction l with
  | zero => exact ⟨owned, counted, z, entry, rfl, rfl⟩
  | succ l ih =>
    obtain ⟨ownedL, countedL, y, entryL, span, left⟩ := ih (by omega)
    have mapped := run_mapped laid entry low high
    have step := @take_page_step g i page l attr (mapped l (by omega))
    obtain ⟨starts, ends⟩ := Prod.mk.inj span
    have lowL : startPage y ≤ page + l := by
      unfold startPage at *
      rw [starts]
      omega
    have highL : page + l < endPage y := by
      unfold endPage at *
      rw [ends]
      omega
    have clearL : bit (takePages g i attr page l).bitsMap (page + l) = false := by
      have outside : ¬ Within page l (page + l) := by unfold Within; omega
      rw [bit_take_pages g i attr (fun k small => mapped k (by omega)), if_neg outside]
      exact clear l (by omega)
    have after : (takePages g i attr page (l + 1)).zones[i]? = some (countUsed y) := by
      rw [step.zones, List.getElem?_modify, entryL]
      simp
    have down : (countUsed y).pageFreeCount.toNat = y.pageFreeCount.toNat - 1 :=
      count_down (by omega)
    refine ⟨owned_step ownedL step (fun _ => rfl) (fun _ => rfl),
      counted_used countedL ownedL step entryL lowL highL clearL (by omega),
      countUsed y, after, span, by omega⟩

theorem release_counted {g : Gmd} {i page n : Nat} {z : Zone} (laid : Laid g)
    (owned : Owned g) (counted : Counted g) (entry : g.zones[i]? = some z)
    (low : startPage z ≤ page) (high : page + n ≤ endPage z)
    (taken : ∀ j, Within page n j → bit g.bitsMap j = true) {l : Nat} (part : l ≤ n) :
    Owned (releasePages g page l) ∧ Counted (releasePages g page l) ∧
      ∃ y, (releasePages g page l).zones[i]? = some y ∧ zoneSpan y = zoneSpan z := by
  induction l with
  | zero => exact ⟨owned, counted, z, entry, rfl⟩
  | succ l ih =>
    obtain ⟨ownedL, countedL, y, entryL, span⟩ := ih (by omega)
    have mapped := run_mapped laid entry low high
    have owner := owned.owner i z (page + l) entry (by omega) (by omega)
    have step := release_page_step (mapped l (by omega)) owner
    obtain ⟨starts, ends⟩ := Prod.mk.inj span
    have lowL : startPage y ≤ page + l := by
      unfold startPage at *
      rw [starts]
      omega
    have highL : page + l < endPage y := by
      unfold endPage at *
      rw [ends]
      omega
    have takenL : bit (releasePages g page l).bitsMap (page + l) = true := by
      have outside : ¬ Within page l (page + l) := by unfold Within; omega
      have inside : Within page n (page + l) := by unfold Within; omega
      rw [bit_release_pages g (fun k small => mapped k (by omega)), if_neg outside]
      exact taken _ inside
    have after : (releasePages g page (l + 1)).zones[i]? = some (countFreed y) := by
      rw [step.zones, List.getElem?_modify, entryL]
      simp
    exact ⟨owned_step ownedL step (fun _ => rfl) (fun _ => rfl),
      counted_freed countedL ownedL step entryL lowL highL takenL, countFreed y, after, span⟩

/-- The pages are laid out, the live runs lie in zones, and the counters are right. -/
structure Accounted (h : Usage) : Prop where
  tidy : Tidy h
  owned : Owned h.g
  counted : Counted h.g

theorem alloc_accounted {h : Usage} {zoneSelect number : Int} {flags : BitVec 64}
    (accounted : Accounted h) (valid : 0 < number ∧ number < 64)
    (inScanned : InScannedZone h (.alloc zoneSelect number flags)) :
    Accounted ⟨(allocPages h.g zoneSelect number).1,
      record h.runs (allocPages h.g zoneSelect number).2 number⟩ := by
  have tidy := accounted.tidy
  cases returned : (allocPages h.g zoneSelect number).2 with
  | none =>
    rw [alloc_pages_none valid returned]
    exact accounted
  | some page =>
    obtain ⟨first, stop, attr, i, range, found, taken⟩ :=
      alloc_pages_first tidy.laid.extend valid returned
    obtain ⟨z, ⟨above, below, entry, free⟩, low, -, clear⟩ := found.1
    have high := inScanned first stop attr i page z range found entry
    have kept := @take_counted h.g i page number.toNat z attr tidy.laid accounted.owned accounted.counted entry
      low high clear free _ (Nat.le_refl _)
    rw [taken]
    exact ⟨take_tidy tidy entry low high clear, kept.1, kept.2.1⟩

theorem free_accounted {h : Usage} {page : Nat} {number : Int} (accounted : Accounted h)
    (live : (page, number.toNat) ∈ h.runs) (valid : 0 < number ∧ number < 64) :
    Accounted ⟨freePages h.g (some page) number, h.runs.erase (page, number.toNat)⟩ := by
  have tidy := free_tidy accounted.tidy live valid
  obtain ⟨i, z, entry, low, high⟩ := accounted.tidy.zoned _ live
  have kept := release_counted accounted.tidy.laid accounted.owned accounted.counted entry low high
    (accounted.tidy.taken _ live) (Nat.le_refl _)
  have inRange : ¬ (number ≥ 64 ∨ number ≤ 0) := by omega
  have released : freePages h.g (some page) number = releasePages h.g page number.toNat := by
    simp [freePages, inRange]
  refine ⟨tidy, ?_, ?_⟩
  · rw [released]
    exact kept.1
  · rw [released]
    exact kept.2.1

theorem foreign_accounted {h : Usage} (memory : Words) (accounted : Accounted h) :
    Accounted ⟨overwrite h.g memory, h.runs⟩ := by
  refine ⟨foreign_tidy memory accounted.tidy, ⟨accounted.owned.owner, accounted.owned.sized⟩, ?_⟩
  intro i z entry
  obtain ⟨length, used⟩ := accounted.counted i z entry
  refine ⟨length, used.trans (set_count_congr fun j _ high => ?_).symm⟩
  have reach := accounted.tidy.laid.held i z entry
  have inWord : j / 64 < h.g.bitsLength / 8 := by omega
  simp [overwrite, setBits, bit, inWord]

theorem step_accounted {h t : Usage} {e : Event} (accounted : Accounted h)
    (step : Guarded InScannedZone Step h e t) : Accounted t := by
  obtain ⟨step, inScanned⟩ := step
  cases step with
  | alloc zoneSelect number flags valid => exact alloc_accounted accounted valid inScanned
  | free page number live valid => exact free_accounted accounted live valid
  | foreign memory => exact foreign_accounted memory accounted

/-- As long as every run that alloc_pages finds stays in the zone that it scans, the counters of
every zone agree with the bitmap. -/
theorem zones_stay_counted (h t : Usage) (es : List Event) (accounted : Accounted h)
    (run : Steps (Guarded InScannedZone Step) h es t) : Counted t.g := by
  exact (invariant_of_step (fun _ _ _ known step => step_accounted known step) run accounted).counted

/- Two zones that meet inside a bitmap word: the pages 1 to 3 and the pages 4 to 63. -/
def machineAdjacent : Machine where
  table := fun i =>
    if i = 0 then ⟨0, 0x9fc00, 1⟩ else if i = 1 then ⟨0x100000, 0x700000, 1⟩
    else if i = 2 then ⟨0x800000, 0x7800000, 1⟩ else ⟨0, 0, 0⟩
  startBrk := 0xffff800000180000
  memory := fun _ => 0

theorem adjacent_zones {P : Nat → Zone → Prop} [∀ i z, Decidable (P i z)]
    (holds : ∀ i < 2, ((initMemory machineAdjacent).zones[i]?.all fun z => P i z) = true)
    {i : Nat} {z : Zone} (entry : (initMemory machineAdjacent).zones[i]? = some z) : P i z := by
  have two : (initMemory machineAdjacent).zones.length = 2 := by decide +kernel
  have small : i < 2 := two ▸ (List.getElem?_eq_some_iff.mp entry).1
  have here := holds i small
  rw [entry] at here
  simpa using here

theorem adjacent_accounted : Accounted (start machineAdjacent) where
  tidy := start_tidy ⟨by decide +kernel, by decide +kernel⟩
  owned := by
    constructor
    · intro i z p entry low high
      have reach := adjacent_zones (P := fun _ z => endPage z ≤ 64) (by decide +kernel) entry
      have owners := adjacent_zones (P := fun i z => ∀ p ∈ List.range 64,
        startPage z ≤ p ∧ p < endPage z →
          ((initMemory machineAdjacent).pages p).zoneStruct = some i) (by decide +kernel) entry
      exact owners p (List.mem_range.mpr (by omega)) ⟨low, high⟩
    · exact fun i z entry => adjacent_zones (P := fun _ z => z.pagesLength < 2 ^ 64)
        (by decide +kernel) entry
  counted := fun i z entry => adjacent_zones (P := fun _ z =>
      z.pageUsingCount.toNat + z.pageFreeCount.toNat = z.pagesLength ∧ z.pageUsingCount.toNat =
        setCount (initMemory machineAdjacent).bitsMap (startPage z) (endPage z))
    (by decide +kernel) entry

theorem zones_stay_counted_two_pages :
    ∃ t, Steps Step (start machineAdjacent) [.alloc zoneNormal 2 0] t ∧ Counted t.g := by
  have accounted := adjacent_accounted
  have found : searchZones (initMemory machineAdjacent) 2 1 0 = some (0, 1) := by decide +kernel
  have range : zoneRange (initMemory machineAdjacent) zoneNormal = some (0, 1, pgPTableMaped) := by
    decide +kernel
  have inScanned : InScannedZone (start machineAdjacent) (.alloc zoneNormal 2 0) := by
    intro first stop attr i page z range' candidate entry
    cases range.symm.trans range'
    have result := (search_zones_first accounted.tidy.laid.extend (by decide)).mpr candidate
    cases found.symm.trans result
    have reach := adjacent_zones (P := fun i z => i = 0 → endPage z = 4) (by decide +kernel) entry
    rw [reach rfl]
    decide
  have step := Step.alloc (start machineAdjacent) zoneNormal 2 0 (by decide)
  exact ⟨_, steps_single step,
    zones_stay_counted _ _ _ accounted (steps_single ⟨step, inScanned⟩)⟩

theorem miscounted {g : Gmd} (wrong : (g.zones[0]?.any fun z =>
    z.pageUsingCount.toNat ≠ setCount g.bitsMap (startPage z) (endPage z)) = true) :
    ¬ Counted g := by
  intro counted
  obtain ⟨z, entry, differ⟩ := (Option.any_eq_true _ _).mp wrong
  exact of_decide_eq_true differ (counted 0 z entry).2

/- With the pages 1 and 3 free the search in the first zone takes the pages 3 and 4 and charges
   both to it, though page 4 is in the second. -/
theorem zone_charged_for_another : ∃ es t, Accounted (start machineAdjacent) ∧
    Steps Step (start machineAdjacent) es t ∧ ¬ Counted t.g := by
  refine ⟨[.alloc zoneNormal 1 0, .alloc zoneNormal 1 0, .free 1 1, .alloc zoneNormal 2 0], _,
    adjacent_accounted,
    .cons (.alloc _ zoneNormal 1 0 (by decide)) <|
    .cons (.alloc _ zoneNormal 1 0 (by decide)) <|
    .cons (.free _ 1 1 (by decide +kernel) (by decide)) <|
    .cons (.alloc _ zoneNormal 2 0 (by decide)) <| .nil _, ?_⟩
  exact miscounted (by decide +kernel)

end ZoneAccounting

import Q2os.Kmalloc
import Q2os.PageRuns

/- The page requests of kmalloc: one page of ZONE_NORMAL at a time, and its return. -/
namespace KmallocPages
open Bitmap PageAllocator PageSearch PageRuns

/-- A page whose bit is clear knows its address, and the bitmap reaches over the zones. -/
structure Pages (g : Gmd) : Prop where
  extend : ZonesExtend g
  held : ∀ (i : Nat) (z : Zone), g.zones[i]? = some z → endPage z ≤ 64 * (g.bitsLength / 8)
  backed : ∀ j < 64 * (g.bitsLength / 8), bit g.bitsMap j = false →
    (g.pages j).phyAddress = pageSize * j

theorem pages_of_same {g g' : Gmd} (same : SameLayout g g')
    (backed : ∀ j < 64 * (g.bitsLength / 8), bit g'.bitsMap j = false →
      (g.pages j).phyAddress = pageSize * j)
    (pages : Pages g) : Pages g' := by
  refine ⟨?_, ?_, ?_⟩
  · intro i z' entry
    obtain ⟨z, before, start, stop⟩ := layout_zone same entry
    have inside := pages.extend i z before
    omega
  · intro i z' entry
    obtain ⟨z, before, start, stop⟩ := layout_zone same entry
    rw [same.length, ← stop]
    exact pages.held i z before
  · intro j small clear
    rw [same.length] at small
    rw [same.phys]
    exact backed j small clear

@[simp] theorem page_init_bits (g : Gmd) (i : Nat) (flags : BitVec 64) :
    (pageInit g i flags).bitsMap = g.bitsMap := by
  unfold pageInit
  dsimp only
  split
  · rw [update_zone_bits]
    rfl
  · rfl

theorem page_init_pages {g : Gmd} (i : Nat) (flags : BitVec 64) (pages : Pages g) :
    Pages (pageInit g i flags) := by
  refine pages_of_same (page_init_layout g i flags) ?_ pages
  intro j small clear
  rw [page_init_bits] at clear
  exact pages.backed j small clear

theorem page_clean_layout (g : Gmd) (i : Nat) : SameLayout g (pageClean g i) := by
  have first : SameLayout g (setPage g i
      { g.pages i with referenceCount := (g.pages i).referenceCount - 1 }) :=
    set_page_layout g i { g.pages i with referenceCount := (g.pages i).referenceCount - 1 } rfl
  unfold pageClean
  dsimp only
  split
  · refine same_layout_trans (same_layout_trans first
      (update_zone_layout _ _ countUnlinked (fun _ => rfl))) (set_page_layout _ i _ ?_)
    rw [update_zone_pages]
  · exact same_layout_trans first (update_zone_layout _ _ countUnlinked (fun _ => rfl))

@[simp] theorem page_clean_bits (g : Gmd) (i : Nat) : (pageClean g i).bitsMap = g.bitsMap := by
  unfold pageClean
  dsimp only
  split
  · simp [setPage]
  · simp [setPage]

/- One page at a time. -/

theorem bit_take_one {g : Gmd} {p : Nat} (zone : Nat) (attr : BitVec 64)
    (address : (g.pages p).phyAddress = pageSize * p) (j : Nat) :
    bit (takePages g zone attr p 1).bitsMap j = if p = j then true else bit g.bitsMap j := by
  rw [bit_take_pages]
  · have same : Within p 1 j ↔ p = j := by unfold Within; omega
    simp only [same]
  · intro l small
    have zero : l = 0 := by omega
    subst zero
    rw [Nat.add_zero, address]
    exact Nat.mul_div_cancel_left p (by decide)

theorem bit_release_one {g : Gmd} {p : Nat} (address : (g.pages p).phyAddress = pageSize * p)
    (j : Nat) :
    bit (releasePages g p 1).bitsMap j = if p = j then false else bit g.bitsMap j := by
  rw [bit_release_pages]
  · have same : Within p 1 j ↔ p = j := by unfold Within; omega
    simp only [same]
  · intro l small
    have zero : l = 0 := by omega
    subst zero
    rw [Nat.add_zero, address]
    exact Nat.mul_div_cancel_left p (by decide)

theorem free_one_eq (g : Gmd) (p : Nat) : freePages g (some p) 1 = releasePages g p 1 := by
  have valid : ¬ ((1 : Int) ≥ 64 ∨ (1 : Int) ≤ 0) := by decide
  simp [freePages]

/-- What alloc_pages(ZONE_NORMAL,1,0) does when it returns a page. -/
structure TakesPage (g g' : Gmd) (page : Nat) : Prop where
  free : bit g.bitsMap page = false
  address : (g.pages page).phyAddress = pageSize * page
  bits : ∀ j, bit g'.bitsMap j = if page = j then true else bit g.bitsMap j
  layout : SameLayout g g'
  pages : Pages g'

theorem takes_one {g : Gmd} {page : Nat} (zone : Nat) (attr : BitVec 64) (pages : Pages g)
    (inside : page < 64 * (g.bitsLength / 8)) (free : bit g.bitsMap page = false) :
    TakesPage g (takePages g zone attr page 1) page := by
  have address := pages.backed page inside free
  have layout := take_pages_layout g zone attr page 1
  have bits := bit_take_one zone attr address
  refine ⟨free, address, bits, layout, pages_of_same layout ?_ pages⟩
  intro j small clear
  rw [bits] at clear
  by_cases here : page = j
  · simp [here] at clear
  · rw [if_neg here] at clear
    exact pages.backed j small clear

theorem alloc_one {g g' : Gmd} {page : Nat} (pages : Pages g)
    (call : allocPages g zoneNormal 1 = (g', some page)) : TakesPage g g' page := by
  have valid : (0 : Int) < 1 ∧ (1 : Int) < 64 := by decide
  obtain ⟨first, stop, attr, zone, range, found, taken⟩ :=
    @alloc_pages_first g zoneNormal 1 page pages.extend valid (by rw [call])
  obtain ⟨z, selected, low, high, clear⟩ := found.1
  have one : (1 : Int).toNat = 1 := rfl
  rw [call, one] at taken
  rw [one] at clear
  have inside : page < 64 * (g.bitsLength / 8) := by
    have reach := pages.held zone z selected.2.2.1
    unfold scanEnd at high
    omega
  have after : g' = takePages g zone attr page 1 := taken
  rw [after]
  exact takes_one zone attr pages inside (clear 0 (by decide))

/-- What page_clean and free_pages(page,1) do to a page with a known address. -/
structure ReturnsPage (g g' : Gmd) (page : Nat) : Prop where
  bits : ∀ j, bit g'.bitsMap j = if page = j then false else bit g.bitsMap j
  layout : SameLayout g g'
  pages : Pages g'

theorem page_clean_pages {g : Gmd} (i : Nat) (pages : Pages g) : Pages (pageClean g i) := by
  refine pages_of_same (page_clean_layout g i) ?_ pages
  intro j small clear
  rw [page_clean_bits] at clear
  exact pages.backed j small clear

/- free_pages(page,1) by itself. -/
theorem release_one {g : Gmd} {page : Nat} (pages : Pages g)
    (address : (g.pages page).phyAddress = pageSize * page) :
    ReturnsPage g (freePages g (some page) 1) page := by
  rw [free_one_eq]
  have layout := release_pages_layout g page 1
  have bits := bit_release_one address
  refine ⟨bits, layout, pages_of_same layout ?_ pages⟩
  intro j small clear
  rw [bits] at clear
  by_cases here : page = j
  · exact here ▸ address
  · rw [if_neg here] at clear
    exact pages.backed j small clear

theorem free_one {g : Gmd} {page : Nat} (pages : Pages g)
    (address : (g.pages page).phyAddress = pageSize * page) :
    ReturnsPage g (freePages (pageClean g page) (some page) 1) page := by
  have clean := page_clean_layout g page
  have returns := release_one (page_clean_pages page pages) ((clean.phys page).trans address)
  refine ⟨fun j => ?_, same_layout_trans clean returns.layout, returns.pages⟩
  rw [returns.bits, page_clean_bits]

end KmallocPages

import Mathlib.Data.Nat.Count
import Mathlib.Order.Interval.Finset.Nat
import Q2os.PageSearch

/- Where a selected zone has enough free pages in a row, alloc_pages finds some. -/
namespace FreeRuns
open Bitmap PageAllocator PageSearch

def freePagesOf (m : Words) (z : Zone) : Nat :=
  Nat.count (fun k => bit m (startPage z + k) = false) (endPage z - startPage z)

/-- page_free_count of every zone is the number of its free pages. -/
def FreeCounted (g : Gmd) : Prop :=
  ∀ (i : Nat) (z : Zone), g.zones[i]? = some z → z.pageFreeCount.toNat = freePagesOf g.bitsMap z

/- n free pages in a row inside a zone. -/
def HasRun (m : Words) (z : Zone) (n : Nat) : Prop :=
  ∃ p, startPage z ≤ p ∧ p + n ≤ endPage z ∧ Clear m p n

theorem count_of_range {p : Nat → Prop} [DecidablePred p] {n a len : Nat}
    (held : ∀ k, a ≤ k → k < a + len → p k) (inside : a + len ≤ n) : len ≤ Nat.count p n := by
  have within : Finset.Ico a (a + len) ⊆ (Finset.range n).filter p := by
    intro k member
    obtain ⟨low, high⟩ := Finset.mem_Ico.mp member
    exact Finset.mem_filter.mpr ⟨Finset.mem_range.mpr (by omega), held k low high⟩
  have counted := Finset.card_le_card within
  rw [Nat.card_Ico, Nat.add_sub_cancel_left] at counted
  rw [Nat.count_eq_card_filter_range]
  exact counted

theorem run_counted {m : Words} {z : Zone} {n : Nat} (run : HasRun m z n) :
    n ≤ freePagesOf m z := by
  obtain ⟨p, low, high, clear⟩ := run
  apply @count_of_range _ _ _ (p - startPage z)
  · intro k from_p to_end
    have bit_at := clear (startPage z + k - p) (by omega)
    have place : p + (startPage z + k - p) = startPage z + k := by omega
    rwa [place] at bit_at
  · omega

/- A run that begins in the zone is not missed. -/
theorem search_zone_some {g : Gmd} {z : Zone} {n : Nat} (small : n < 64) (positive : 0 < n)
    (run : HasRun g.bitsMap z n) :
    ∃ page, searchZone g.bitsMap n (64 - startPage z % 64) (endPage z)
      (endPage z - startPage z) (startPage z) = some page := by
  obtain ⟨p, low, high, clear⟩ := run
  have finds := @search_zone_finds g.bitsMap n (64 - startPage z % 64) (endPage z) small
    (endPage z - startPage z) (startPage z) (by unfold scanEnd; omega) (Or.inl (by omega))
    (fun _ => rfl) (Nat.le_refl _)
  cases result : searchZone g.bitsMap n (64 - startPage z % 64) (endPage z)
    (endPage z - startPage z) (startPage z) with
  | some page => exact ⟨page, rfl⟩
  | none =>
    rw [result] at finds
    exact absurd clear (finds p low (by unfold scanEnd; omega))

theorem search_zones_some {g : Gmd} {n left i k : Nat} {z : Zone} (from_i : i ≤ k)
    (below : k < i + left) (entry : g.zones[k]? = some z) (enough : n ≤ z.pageFreeCount.toNat)
    (found : ∃ page, searchZone g.bitsMap n (64 - startPage z % 64) (endPage z)
      (endPage z - startPage z) (startPage z) = some page) :
    ∃ answer, searchZones g n left i = some answer := by
  induction left generalizing i with
  | zero => omega
  | succ left ih =>
    unfold searchZones
    by_cases here : k = i
    · obtain ⟨page, found⟩ := found
      subst here
      simp only [entry, if_neg (Nat.not_lt.mpr enough), found]
      exact ⟨_, rfl⟩
    · have later := @ih (i + 1) (by omega) (by omega)
      split
      · exact later
      · split
        · exact later
        · split
          · exact ⟨_, rfl⟩
          · exact later

/- What is found in a zone is a run of free pages, though its end may lie behind the zone. -/
theorem search_zone_clear {m : Words} {n tmp stop fuel j page : Nat} (small : n < 64)
    (found : searchZone m n tmp stop fuel j = some page) : Clear m page n := by
  induction fuel generalizing j with
  | zero => cases found
  | succ fuel ih =>
    unfold searchZone at found
    split at found
    · have word := search_word_finds m j small (64 - j % 64) (by omega)
      cases result : searchWord m n j (64 - j % 64) with
      | some q =>
        rw [result] at word found
        cases found
        exact word.2.2.1
      | none =>
        rw [result] at found
        exact ih found
    · cases found

theorem search_zones_clear {g : Gmd} {n left i zone page : Nat} (small : n < 64)
    (found : searchZones g n left i = some (zone, page)) : Clear g.bitsMap page n := by
  induction left generalizing i with
  | zero => cases found
  | succ left ih =>
    unfold searchZones at found
    split at found
    · exact ih found
    · split at found
      · exact ih found
      · split at found
        · rename_i result
          cases found
          exact search_zone_clear small result
        · exact ih found

/-- alloc_pages returns free pages whenever a zone of the selected range has enough of them in a
    row. -/
theorem alloc_pages_complete (g : Gmd) (counted : FreeCounted g) (zoneSelect number : Int)
    (positive : 0 < number) (small : number < 64) (first stop : Nat) (attr : BitVec 64)
    (selected : zoneRange g zoneSelect = some (first, stop, attr)) (i : Nat) (z : Zone)
    (low : first ≤ i) (high : i < stop) (entry : g.zones[i]? = some z)
    (run : HasRun g.bitsMap z number.toNat) :
    ∃ g' page, allocPages g zoneSelect number = (g', some page) ∧
      Clear g.bitsMap page number.toNat := by
  have enough : number.toNat ≤ z.pageFreeCount.toNat := by
    rw [counted i z entry]
    exact run_counted run
  obtain ⟨answer, found⟩ := @search_zones_some g number.toNat (stop - first) first i z low
    (by omega) entry enough (search_zone_some (by omega) (by omega) run)
  obtain ⟨zone, page⟩ := answer
  have in_range : ¬ (number ≥ 64 ∨ number ≤ 0) := by omega
  have clear := search_zones_clear (by omega) found
  simp only [allocPages, if_neg in_range, selected, found]
  exact ⟨_, page, rfl, clear⟩

/- Zones of the pages 1 to 9 and 10 to 199. Of the second one 70, 124 to 130 and 195 to 199 are free. -/
def lowZone : Zone := ⟨1, 9, 2 ^ 21, 2 ^ 21 * 10, 2 ^ 21 * 9, 0, 7, 2, 7⟩
def highZone : Zone := ⟨10, 190, 2 ^ 21 * 10, 2 ^ 21 * 200, 2 ^ 21 * 190, 0, 177, 13, 177⟩

def fragmented (i : Nat) : BitVec 64 :=
  if i = 0 then 0xffffffffffffff5f
  else if i = 1 then 0x0fffffffffffffbf
  else if i = 2 then 0xfffffffffffffff8
  else if i = 3 then 0xffffffffffffff07
  else 0

def fragmentedGmd : Gmd where
  e820 := fun _ => ⟨0, 0, 0⟩
  e820Length := 0
  bitsMap := fragmented
  bitsSize := 200
  bitsLength := 32
  pages := fun i => ⟨some (if i < 10 then 0 else 1), 2 ^ 21 * i, 0, 0, 0⟩
  zones := [lowZone, highZone]
  endOfStruct := 0
  zoneDmaIndex := 0
  zoneNormalIndex := 1
  zoneUnmapedIndex := 0

theorem fragmented_counted : FreeCounted fragmentedGmd := by
  intro i z entry
  match i, entry with
  | 0, rfl => decide +kernel
  | 1, rfl => decide +kernel

/- The only seven free pages in a row begin in one word of the bitmap and end in the next. -/
theorem alloc_pages_complete_fragmented :
    ∃ g' page, allocPages fragmentedGmd zoneNormal 7 = (g', some page) ∧
      Clear fragmentedGmd.bitsMap page (7 : Int).toNat :=
  alloc_pages_complete fragmentedGmd fragmented_counted zoneNormal 7 (by decide) (by decide) 0 2
    pgPTableMaped rfl 1 highZone (by decide) (by decide) rfl
    ⟨124, by decide, by decide, by decide +kernel⟩

end FreeRuns

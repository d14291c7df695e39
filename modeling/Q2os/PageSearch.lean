import Q2os.PageAllocator

/- What the search of alloc_pages finds: the first run of clear bits that begins in a zone
   or in the rest of the bitmap word in which the zone ends. -/
namespace PageSearch
open Bitmap PageAllocator

/-- The outcome of a search for n clear bits that begin from lo on and below hi. -/
def Finds (m : Words) (n lo hi : Nat) : Option Nat → Prop
  | none => ∀ p, lo ≤ p → p < hi → ¬ Clear m p n
  | some q => lo ≤ q ∧ q < hi ∧ Clear m q n ∧ ∀ p, lo ≤ p → p < q → ¬ Clear m p n

theorem finds_widen {m : Words} {n lo mid hi q : Nat} (found : Finds m n lo mid (some q))
    (wider : mid ≤ hi) : Finds m n lo hi (some q) := by
  obtain ⟨low, high, clear, first⟩ := found
  exact ⟨low, by omega, clear, first⟩

theorem finds_append {m : Words} {n lo mid hi : Nat} {found : Option Nat}
    (before : Finds m n lo mid none) (rest : Finds m n mid hi found) (ordered : lo ≤ mid) :
    Finds m n lo hi found := by
  cases found with
  | none =>
    intro p low high
    by_cases early : p < mid
    · exact before p low early
    · exact rest p (by omega) high
  | some q =>
    obtain ⟨low, high, clear, first⟩ := rest
    refine ⟨by omega, high, clear, ?_⟩
    intro p from_lo below
    by_cases early : p < mid
    · exact before p from_lo early
    · exact first p (by omega) below

theorem finds_here {m : Words} {n lo hi : Nat} (clear : Clear m lo n) (inside : lo < hi) :
    Finds m n lo hi (some lo) :=
  ⟨Nat.le_refl lo, inside, clear, fun p low below => absurd low (by omega)⟩

theorem finds_none_single {m : Words} {n lo : Nat} (used : ¬ Clear m lo n) :
    Finds m n lo (lo + 1) none := by
  intro p low high
  have same : p = lo := by omega
  exact same ▸ used

theorem search_word_finds (m : Words) {n : Nat} (j : Nat) (small : n < 64) :
    ∀ left, left ≤ 64 →
      Finds m n (64 * (j / 64) + (64 - left)) (64 * (j / 64) + 64) (searchWord m n j left) := by
  intro left
  induction left with
  | zero =>
    intro _ p low high
    omega
  | succ left ih =>
    intro fits
    have inWord : 64 - (left + 1) < 64 := by omega
    have next : 64 * (j / 64) + (64 - left) = 64 * (j / 64) + (64 - (left + 1)) + 1 := by omega
    unfold searchWord
    dsimp only
    by_cases clear : Clear m (64 * (j / 64) + (64 - (left + 1))) n
    · have page : j + (64 - (left + 1)) - j % 64 = 64 * (j / 64) + (64 - (left + 1)) := by omega
      rw [if_pos ((window_zero_iff m inWord small).mpr clear), page]
      exact finds_here clear (by omega)
    · rw [if_neg (fun zero => clear ((window_zero_iff m inWord small).mp zero))]
      have rest := ih (by omega)
      rw [next] at rest
      exact finds_append (finds_none_single clear) rest (by omega)

/- The end of the bitmap word in which the zone ends. -/
def scanEnd (stop : Nat) : Nat := (stop + 63) / 64 * 64

theorem search_zone_finds (m : Words) {n tmp stop : Nat} (small : n < 64) :
    ∀ fuel j, j ≤ scanEnd stop → (j < stop ∨ j % 64 = 0) → (j % 64 ≠ 0 → tmp = 64 - j % 64) →
      stop - j ≤ fuel →
      Finds m n j (scanEnd stop) (searchZone m n tmp stop fuel j) := by
  intro fuel
  induction fuel with
  | zero =>
    intro j _ aligned _ enough p low high
    unfold scanEnd at high
    omega
  | succ fuel ih =>
    intro j reach aligned step enough
    unfold searchZone
    by_cases inside : j < stop
    · rw [if_pos inside]
      have word := search_word_finds m j small (64 - j % 64) (by omega)
      have here : 64 * (j / 64) + (64 - (64 - j % 64)) = j := by omega
      have wordEnd : 64 * (j / 64) + 64 ≤ scanEnd stop := by unfold scanEnd; omega
      rw [here] at word
      cases found : searchWord m n j (64 - j % 64) with
      | some page =>
        rw [found] at word
        exact finds_widen word wordEnd
      | none =>
        rw [found] at word
        have advance : (j + if j % 64 ≠ 0 then tmp else 64) = 64 * (j / 64) + 64 := by
          by_cases unaligned : j % 64 ≠ 0
          · rw [if_pos unaligned, step unaligned]
            omega
          · rw [if_neg unaligned]
            omega
        dsimp only
        rw [advance]
        exact finds_append word (ih _ wordEnd (by omega) (by omega) (by omega)) (by omega)
    · rw [if_neg inside]
      intro p low high
      unfold scanEnd at high
      omega

/- A zone that alloc_pages looks into: in the range and with enough free pages by its count. -/
def Selected (g : Gmd) (n first stop i : Nat) (z : Zone) : Prop :=
  first ≤ i ∧ i < stop ∧ g.zones[i]? = some z ∧ n ≤ z.pageFreeCount.toNat

def ZoneFinds (g : Gmd) (n : Nat) (z : Zone) : Option Nat → Prop :=
  Finds g.bitsMap n (startPage z) (scanEnd (endPage z))

/- The zones are not empty. -/
def ZonesExtend (g : Gmd) : Prop := ∀ (i : Nat) (z : Zone), g.zones[i]? = some z → startPage z < endPage z

theorem search_zone_of_zone {g : Gmd} {n i : Nat} {z : Zone} (extend : ZonesExtend g)
    (small : n < 64) (entry : g.zones[i]? = some z) :
    ZoneFinds g n z (searchZone g.bitsMap n (64 - startPage z % 64) (endPage z)
      (endPage z - startPage z) (startPage z)) := by
  have inside := extend i z entry
  refine search_zone_finds g.bitsMap small _ _ ?_ (Or.inl inside) (fun _ => rfl) (by omega)
  unfold scanEnd
  omega

def ZonesFind (g : Gmd) (n first stop : Nat) : Option (Nat × Nat) → Prop
  | none => ∀ i z, Selected g n first stop i z → ZoneFinds g n z none
  | some (i, page) => (∃ z, Selected g n first stop i z ∧ ZoneFinds g n z (some page)) ∧
      ∀ i' z, i' < i → Selected g n first stop i' z → ZoneFinds g n z none

theorem search_zones_find {g : Gmd} {n : Nat} (extend : ZonesExtend g) (small : n < 64) :
    ∀ left i, ZonesFind g n i (i + left) (searchZones g n left i) := by
  intro left
  induction left with
  | zero =>
    rintro i j z ⟨low, high, -⟩
    omega
  | succ left ih =>
    intro i
    have tail := ih (i + 1)
    have skip : (∀ z, Selected g n i (i + (left + 1)) i z → ZoneFinds g n z none) →
        ZonesFind g n i (i + (left + 1)) (searchZones g n left (i + 1)) := by
      intro here
      have later : ∀ i' z, i' ≠ i → Selected g n i (i + (left + 1)) i' z →
          Selected g n (i + 1) (i + 1 + left) i' z := by
        rintro i' z other ⟨low, high, entry, enough⟩
        exact ⟨by omega, by omega, entry, enough⟩
      cases result : searchZones g n left (i + 1) with
      | none =>
        rw [result] at tail
        intro i' z selected
        by_cases same : i' = i
        · exact here z (same ▸ selected)
        · exact tail i' z (later i' z same selected)
      | some found =>
        obtain ⟨k, page⟩ := found
        rw [result] at tail
        obtain ⟨⟨z, ⟨low, high, entry, enough⟩, finds⟩, before⟩ := tail
        refine ⟨⟨z, ⟨by omega, by omega, entry, enough⟩, finds⟩, ?_⟩
        intro i' z' earlier selected
        by_cases same : i' = i
        · exact here z' (same ▸ selected)
        · exact before i' z' earlier (later i' z' same selected)
    unfold searchZones
    cases entry : g.zones[i]? with
    | none =>
      apply skip
      rintro z ⟨-, -, present, -⟩
      rw [entry] at present
      cases present
    | some z =>
      dsimp only
      by_cases few : z.pageFreeCount.toNat < n
      · rw [if_pos few]
        apply skip
        rintro z' ⟨-, -, present, enough⟩
        rw [entry] at present
        cases present
        omega
      · rw [if_neg few]
        have finds := search_zone_of_zone extend small entry
        cases result : searchZone g.bitsMap n (64 - startPage z % 64) (endPage z)
          (endPage z - startPage z) (startPage z) with
        | some page =>
          rw [result] at finds
          refine ⟨⟨z, ⟨by omega, by omega, entry, by omega⟩, finds⟩, ?_⟩
          rintro i' z' earlier ⟨low, -⟩
          omega
        | none =>
          rw [result] at finds
          apply skip
          rintro z' ⟨-, -, present, -⟩
          rw [entry] at present
          cases present
          exact finds

end PageSearch

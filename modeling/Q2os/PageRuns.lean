import Q2os.PageSearch
import Q2os.Run

/- The runs of pages that alloc_pages has handed out. The search looks at whole bitmap words,
   so it can find a run that leaves the zone. -/
namespace PageRuns
open Bitmap PageAllocator PageSearch Run

/- What alloc_pages and free_pages never change: the zones' addresses, the pages' addresses
   and the length of the bitmap. -/

def zoneSpan (z : Zone) : Nat × Nat := (z.zoneStartAddress, z.zoneEndAddress)

structure SameLayout (g g' : Gmd) : Prop where
  spans : g'.zones.map zoneSpan = g.zones.map zoneSpan
  phys : ∀ p, (g'.pages p).phyAddress = (g.pages p).phyAddress
  length : g'.bitsLength = g.bitsLength

theorem modify_entry {α : Type} {f : α → α} {l : List α} {i k : Nat} {a' : α}
    (entry : (l.modify i f)[k]? = some a') : ∃ a, l[k]? = some a ∧ a' = if i = k then f a else a := by
  rw [List.getElem?_modify] at entry
  obtain ⟨a, before, same⟩ := Option.map_eq_some_iff.mp entry
  refine ⟨a, before, same.symm.trans ?_⟩
  split <;> rfl

theorem map_modify {α β : Type} {k : α → β} {f : α → α} {f' : β → β} (l : List α) (i : Nat)
    (agree : ∀ a, k (f a) = f' (k a)) : (l.modify i f).map k = (l.map k).modify i f' := by
  apply List.ext_getElem?
  intro j
  simp only [List.getElem?_map, List.getElem?_modify]
  cases l[j]? with
  | none => rfl
  | some a => by_cases here : i = j <;> simp [here, agree]

@[simp] theorem update_zone_pages (g : Gmd) (z : Option Nat) (f : Zone → Zone) :
    (updateZone g z f).pages = g.pages := by
  cases z <;> rfl

@[simp] theorem update_zone_bits (g : Gmd) (z : Option Nat) (f : Zone → Zone) :
    (updateZone g z f).bitsMap = g.bitsMap := by
  cases z <;> rfl

theorem update_zone_map {β : Type} {k : Zone → β} {f : Zone → Zone} (g : Gmd) (z : Option Nat)
    (same : ∀ z, k (f z) = k z) : (updateZone g z f).zones.map k = g.zones.map k := by
  cases z with
  | none => rfl
  | some i => exact (map_modify g.zones i same).trans (List.modify_id i _)

theorem update_zone_entry {g : Gmd} {z : Option Nat} {f : Zone → Zone} {i : Nat} {z' : Zone}
    (entry : (updateZone g z f).zones[i]? = some z') :
    ∃ z₀, g.zones[i]? = some z₀ ∧ z' = if z = some i then f z₀ else z₀ := by
  cases z with
  | none => exact ⟨z', entry, rfl⟩
  | some k =>
    obtain ⟨z₀, before, after⟩ := modify_entry entry
    exact ⟨z₀, before, by simp only [after, Option.some.injEq]⟩

theorem same_layout_refl (g : Gmd) : SameLayout g g := ⟨rfl, fun _ => rfl, rfl⟩

theorem same_layout_trans {g h k : Gmd} (first : SameLayout g h) (second : SameLayout h k) :
    SameLayout g k :=
  ⟨second.spans.trans first.spans, fun p => (second.phys p).trans (first.phys p),
    second.length.trans first.length⟩

theorem set_bits_layout (g : Gmd) (m : Words) : SameLayout g (setBits g m) :=
  ⟨rfl, fun _ => rfl, rfl⟩

theorem set_page_layout (g : Gmd) (i : Nat) (p : Page)
    (same : p.phyAddress = (g.pages i).phyAddress) : SameLayout g (setPage g i p) := by
  refine ⟨rfl, ?_, rfl⟩
  intro j
  by_cases here : j = i
  · subst here
    simp [setPage, same]
  · simp [setPage, here]

theorem update_zone_layout (g : Gmd) (z : Option Nat) (f : Zone → Zone)
    (same : ∀ z, zoneSpan (f z) = zoneSpan z) : SameLayout g (updateZone g z f) := by
  refine ⟨update_zone_map g z same, fun p => by rw [update_zone_pages], ?_⟩
  cases z <;> rfl

theorem take_pages_layout (g : Gmd) (zone : Nat) (attr : BitVec 64) (page n : Nat) :
    SameLayout g (takePages g zone attr page n) := by
  induction n with
  | zero => exact same_layout_refl g
  | succ l ih =>
    refine same_layout_trans ih ?_
    refine same_layout_trans (same_layout_trans (set_bits_layout _ _)
      (update_zone_layout _ (some zone) countUsed (fun _ => rfl))) (set_page_layout _ _ _ rfl)

theorem release_pages_layout (g : Gmd) (page n : Nat) :
    SameLayout g (releasePages g page n) := by
  induction n with
  | zero => exact same_layout_refl g
  | succ i ih =>
    refine same_layout_trans ih ?_
    refine same_layout_trans (same_layout_trans (set_bits_layout _ _)
      (update_zone_layout _ _ countFreed (fun _ => rfl))) (set_page_layout _ _ _ ?_)
    rw [update_zone_pages]
    rfl

/-- The zones are not empty, each of their pages knows its own address, and the bitmap
reaches to their ends. -/
structure Laid (g : Gmd) : Prop where
  extend : ZonesExtend g
  mapped : ∀ (i : Nat) (z : Zone), g.zones[i]? = some z → ∀ p, startPage z ≤ p →
    p < endPage z → (g.pages p).phyAddress / pageSize = p
  held : ∀ (i : Nat) (z : Zone), g.zones[i]? = some z → endPage z ≤ 64 * (g.bitsLength / 8)

theorem layout_zone {g g' : Gmd} (same : SameLayout g g') {i : Nat} {z' : Zone}
    (entry : g'.zones[i]? = some z') :
    ∃ z, g.zones[i]? = some z ∧ startPage z = startPage z' ∧ endPage z = endPage z' := by
  have spans := congrArg (fun l : List (Nat × Nat) => l[i]?) same.spans
  simp only [List.getElem?_map, entry, Option.map_some] at spans
  cases before : g.zones[i]? with
  | none => simp [before] at spans
  | some z =>
    simp only [before, Option.map_some, Option.some.injEq, zoneSpan, Prod.mk.injEq] at spans
    exact ⟨z, rfl, by rw [startPage, startPage, spans.1], by rw [endPage, endPage, spans.2]⟩

theorem laid_of_same {g g' : Gmd} (same : SameLayout g g') (laid : Laid g) : Laid g' := by
  refine ⟨?_, ?_, ?_⟩
  · intro i z' entry
    obtain ⟨z, before, start, stop⟩ := layout_zone same entry
    have inside := laid.extend i z before
    omega
  · intro i z' entry p low high
    obtain ⟨z, before, start, stop⟩ := layout_zone same entry
    rw [same.phys]
    exact laid.mapped i z before p (by omega) (by omega)
  · intro i z' entry
    obtain ⟨z, before, start, stop⟩ := layout_zone same entry
    rw [same.length, ← stop]
    exact laid.held i z before

def Within (page n j : Nat) : Prop := page ≤ j ∧ j < page + n

instance (page n j : Nat) : Decidable (Within page n j) := inferInstanceAs (Decidable (_ ∧ _))

theorem bit_take_pages (g : Gmd) (zone : Nat) (attr : BitVec 64) {page n : Nat}
    (right : ∀ l < n, (g.pages (page + l)).phyAddress / pageSize = page + l) (j : Nat) :
    bit (takePages g zone attr page n).bitsMap j =
      if Within page n j then true else bit g.bitsMap j := by
  induction n with
  | zero =>
    have outside : ¬ Within page 0 j := by unfold Within; omega
    rw [if_neg outside]
    rfl
  | succ l ih =>
    have before := ih (fun k small => right k (by omega))
    have address : ((takePages g zone attr page l).pages (page + l)).phyAddress / pageSize =
        page + l := by
      rw [(take_pages_layout g zone attr page l).phys]
      exact right l (by omega)
    change bit (setBit (takePages g zone attr page l).bitsMap
      (((takePages g zone attr page l).pages (page + l)).phyAddress / pageSize)) j = _
    rw [address, bit_setBit, before]
    by_cases here : page + l = j
    · have inside : Within page (l + 1) j := by unfold Within; omega
      rw [if_pos here, if_pos inside]
    · have same : Within page (l + 1) j ↔ Within page l j := by unfold Within; omega
      rw [if_neg here]
      simp only [same]

theorem bit_release_pages (g : Gmd) {page n : Nat}
    (right : ∀ l < n, (g.pages (page + l)).phyAddress / pageSize = page + l) (j : Nat) :
    bit (releasePages g page n).bitsMap j =
      if Within page n j then false else bit g.bitsMap j := by
  induction n with
  | zero =>
    have outside : ¬ Within page 0 j := by unfold Within; omega
    rw [if_neg outside]
    rfl
  | succ l ih =>
    have before := ih (fun k small => right k (by omega))
    have address : ((releasePages g page l).pages (page + l)).phyAddress / pageSize =
        page + l := by
      rw [(release_pages_layout g page l).phys]
      exact right l (by omega)
    have stored : (releasePages g page (l + 1)).bitsMap = clearBit (releasePages g page l).bitsMap
        (((releasePages g page l).pages (page + l)).phyAddress / pageSize) := by
      simp only [releasePages, setPage, update_zone_bits]
      rfl
    rw [stored, address, bit_clearBit, before]
    by_cases here : page + l = j
    · have inside : Within page (l + 1) j := by unfold Within; omega
      rw [if_pos here, if_pos inside]
    · have same : Within page (l + 1) j ↔ Within page l j := by unfold Within; omega
      rw [if_neg here]
      simp only [same]

theorem init_pages_zones (g : Gmd) (zone start j : Nat) :
    (initPages g zone start j).zones = g.zones := by
  induction j with
  | zero => rfl
  | succ j ih => exact ih

theorem init_pages_length (g : Gmd) (zone start j : Nat) :
    (initPages g zone start j).bitsLength = g.bitsLength := by
  induction j with
  | zero => rfl
  | succ j ih => exact ih

theorem init_pages_phys (g : Gmd) (zone start j p : Nat) :
    ((initPages g zone start j).pages p).phyAddress / pageSize =
      if Within (start / pageSize) j p then p else (g.pages p).phyAddress / pageSize := by
  induction j with
  | zero =>
    have outside : ¬ Within (start / pageSize) 0 p := by unfold Within; omega
    rw [if_neg outside]
    rfl
  | succ j ih =>
    have shifted : (start + pageSize * j) / pageSize = start / pageSize + j :=
      Nat.add_mul_div_left start j (by decide)
    by_cases here : p = start / pageSize + j
    · have inside : Within (start / pageSize) (j + 1) p := by unfold Within; omega
      rw [if_pos inside, here]
      simp only [initPages, setBits, setPage, Function.update_self]
      exact shifted
    · have same : Within (start / pageSize) (j + 1) p ↔ Within (start / pageSize) j p := by
        unfold Within
        omega
      simp only [same]
      rw [← ih]
      simp only [initPages, setBits, setPage, Function.update_of_ne here]

theorem region_multiple (a : Nat) : a / pageSize * pageSize / pageSize = a / pageSize :=
  Nat.mul_div_cancel _ (by decide)

theorem init_zone_laid {g : Gmd} {e : E820} (laid : Laid g)
    (reach : isZone e → regionEnd e / pageSize ≤ 64 * (g.bitsLength / 8)) :
    Laid (initZone g e) := by
  unfold initZone
  by_cases zone : isZone e
  · rw [if_pos zone]
    dsimp only
    have startPages : regionStart e = regionStart e / pageSize * pageSize := by
      unfold regionStart page2MAlign
      rw [region_multiple]
    have endPages : regionEnd e = regionEnd e / pageSize * pageSize := by
      unfold regionEnd
      rw [region_multiple]
    have extent := zone.2
    have positive : 0 < pageSize := by decide
    have below : regionStart e / pageSize < regionEnd e / pageSize := by
      rw [startPages, endPages] at extent
      exact Nat.lt_of_mul_lt_mul_right (Nat.lt_of_not_le extent)
    have count : (regionEnd e - regionStart e) / pageSize =
        regionEnd e / pageSize - regionStart e / pageSize := by
      conv_lhs => rw [startPages, endPages, ← Nat.sub_mul]
      exact Nat.mul_div_cancel _ positive
    have entries : ∀ (z' : Zone) (i : Nat) (z : Zone),
        (initPages { g with zones := g.zones ++ [z'] } g.zones.length (regionStart e)
          ((regionEnd e - regionStart e) / pageSize)).zones[i]? = some z →
        g.zones[i]? = some z ∨ z = z' := by
      intro z' i z entry
      rw [init_pages_zones] at entry
      simp only at entry
      rw [List.getElem?_append] at entry
      split at entry
      · exact Or.inl entry
      · have last := List.mem_of_getElem? entry
        exact Or.inr (by simpa using last)
    refine ⟨?_, ?_, ?_⟩
    · intro i z entry
      rcases entries _ i z entry with old | rfl
      · exact laid.extend i z old
      · exact below
    · intro i z entry p low high
      rw [init_pages_phys, count]
      split
      · rfl
      · next outside =>
        rcases entries _ i z entry with old | rfl
        · exact laid.mapped i z old p low high
        · refine absurd ?_ outside
          have low : regionStart e / pageSize ≤ p := low
          have high : p < regionEnd e / pageSize := high
          unfold Within
          omega
    · intro i z entry
      rw [init_pages_length]
      rcases entries _ i z entry with old | rfl
      · exact laid.held i z old
      · exact reach zone
  · rw [if_neg zone]
    exact laid

theorem init_zone_length (g : Gmd) (e : E820) : (initZone g e).bitsLength = g.bitsLength := by
  unfold initZone
  by_cases zone : isZone e
  · simp only [if_pos zone]
    exact init_pages_length _ _ _ _
  · rw [if_neg zone]

theorem init_zones_length (g : Gmd) (p : Nat → E820) (i : Nat) :
    (initZones g p i).bitsLength = g.bitsLength := by
  induction i with
  | zero => rfl
  | succ i ih => rw [initZones, init_zone_length, ih]

theorem init_zones_laid {g : Gmd} {p : Nat → E820} (n : Nat) (laid : Laid g)
    (reach : ∀ i < n, isZone (p i) → regionEnd (p i) / pageSize ≤ 64 * (g.bitsLength / 8)) :
    Laid (initZones g p n) := by
  induction n with
  | zero => exact laid
  | succ n ih =>
    refine init_zone_laid (ih fun i small => reach i (by omega)) ?_
    rw [init_zones_length]
    exact reach n (by omega)

theorem page_init_layout (g : Gmd) (i : Nat) (flags : BitVec 64) :
    SameLayout g (pageInit g i flags) := by
  have first : SameLayout g (setPage g i { g.pages i with attr := (g.pages i).attr ||| flags }) :=
    set_page_layout g i { g.pages i with attr := (g.pages i).attr ||| flags } rfl
  unfold pageInit
  dsimp only
  split
  · refine same_layout_trans (same_layout_trans first (set_page_layout _ i _ ?_))
      (update_zone_layout _ _ countLinked (fun _ => rfl))
    rfl
  · exact first

theorem init_boot_pages_layout (g : Gmd) (j : Nat) : SameLayout g (initBootPages g j) := by
  induction j with
  | zero => exact same_layout_refl g
  | succ j ih =>
    exact same_layout_trans (same_layout_trans (same_layout_trans ih (page_init_layout _ _ _))
      (set_bits_layout _ _)) (update_zone_layout _ _ countUsed (fun _ => rfl))

/-- The last entry of the table ends above every zone, and the described memory holds the
boot structures. -/
structure Covered (b : Machine) : Prop where
  zones : ∀ i ≤ lastEntry b.table 31 0, isZone (b.table i) → regionEnd (b.table i) ≤ totalMem b
  structures : bootPages (initMemory b).endOfStruct < bitsSizeOf b

theorem empty_laid (b : Machine) : Laid (emptyGmd b) := by
  refine ⟨?_, ?_, ?_⟩ <;>
  · intro i z entry
    cases entry

theorem init_memory_laid {b : Machine} (covered : Covered b) : Laid (initMemory b) := by
  have zones : Laid (initZones (emptyGmd b) b.table (lastEntry b.table 31 0 + 1)) := by
    refine init_zones_laid _ (empty_laid b) ?_
    intro i small zone
    have below := Nat.div_le_div_right (c := pageSize) (covered.zones i (by omega) zone)
    have length : (emptyGmd b).bitsLength = (totalMem b / pageSize + 63) / 8 / 8 * 8 := rfl
    omega
  unfold initMemory
  refine laid_of_same (init_boot_pages_layout _ _) ?_
  refine ⟨zones.extend, ?_, zones.held⟩
  intro i z entry p low high
  by_cases first : p = 0
  · subst first
    simp [setPage, pageSize]
  · simp only [setPage, Function.update_of_ne first]
    exact zones.mapped i z entry p low high

/-- The page allocator in use: runs lists the runs handed out and not yet given back. -/
structure Usage where
  g : Gmd
  runs : List (Nat × Nat)

inductive Event where
  | alloc (zoneSelect number : Int) (flags : BitVec 64)
  | free (page : Nat) (number : Int)
  | foreign (memory : Words)

def start (b : Machine) : Usage := ⟨initMemory b, []⟩

def record (runs : List (Nat × Nat)) (page : Option Nat) (number : Int) : List (Nat × Nat) :=
  match page with
  | none => runs
  | some p => (p, number.toNat) :: runs

def overwrite (g : Gmd) (memory : Words) : Gmd :=
  setBits g fun w => if w < g.bitsLength / 8 then g.bitsMap w else memory w

inductive Step : Usage → Event → Usage → Prop where
  | alloc (h : Usage) (zoneSelect number : Int) (flags : BitVec 64) (valid : 0 < number ∧ number < 64) :
      Step h (.alloc zoneSelect number flags)
        ⟨(allocPages h.g zoneSelect number).1,
          record h.runs (allocPages h.g zoneSelect number).2 number⟩
  | free (h : Usage) (page : Nat) (number : Int) (live : (page, number.toNat) ∈ h.runs)
      (valid : 0 < number ∧ number < 64) :
      Step h (.free page number)
        ⟨freePages h.g (some page) number, h.runs.erase (page, number.toNat)⟩
  | foreign (h : Usage) (memory : Words) : Step h (.foreign memory) ⟨overwrite h.g memory, h.runs⟩

def Apart (r s : Nat × Nat) : Prop := ∀ j, ¬ (Within r.1 r.2 j ∧ Within s.1 s.2 j)

def InZone (g : Gmd) (zoneSelect : Int) (page n : Nat) : Prop :=
  ∃ first stop attr i z, zoneRange g zoneSelect = some (first, stop, attr) ∧ first ≤ i ∧
    i < stop ∧ g.zones[i]? = some z ∧ startPage z ≤ page ∧ page + n ≤ endPage z

/-- alloc_pages returns free pages of one zone, and no page is in two live runs. -/
def Exclusive (h : Usage) (e : Event) (t : Usage) : Prop :=
  (match e with
    | .alloc zoneSelect number _ =>
      ∀ page, (allocPages h.g zoneSelect number).2 = some page →
        InZone h.g zoneSelect page number.toNat ∧ Clear h.g.bitsMap page number.toNat
    | _ => True) ∧
  t.runs.Pairwise Apart

/- A run of n clear bits that begins in a selected zone or in the rest of the bitmap word in
   which the zone ends. -/
def Candidate (g : Gmd) (n first stop i page : Nat) : Prop :=
  ∃ z, Selected g n first stop i z ∧ startPage z ≤ page ∧ page < scanEnd (endPage z) ∧
    Clear g.bitsMap page n

def FirstCandidate (g : Gmd) (n first stop i page : Nat) : Prop :=
  Candidate g n first stop i page ∧
    ∀ i' page', Candidate g n first stop i' page' → i < i' ∨ i = i' ∧ page ≤ page'

/- The first such run does not leave the zones. -/
def Confined (h : Usage) : Event → Prop
  | .alloc zoneSelect number _ =>
    ∀ first stop attr i page, zoneRange h.g zoneSelect = some (first, stop, attr) →
      FirstCandidate h.g number.toNat first stop i page →
      InZone h.g zoneSelect page number.toNat
  | _ => True

structure Tidy (h : Usage) : Prop where
  laid : Laid h.g
  zoned : ∀ r ∈ h.runs, ∃ (i : Nat) (z : Zone), h.g.zones[i]? = some z ∧ startPage z ≤ r.1 ∧
    r.1 + r.2 ≤ endPage z
  taken : ∀ r ∈ h.runs, ∀ j, Within r.1 r.2 j → bit h.g.bitsMap j = true
  apart : h.runs.Pairwise Apart

theorem first_candidate_unique {g : Gmd} {n first stop i page i' page' : Nat}
    (one : FirstCandidate g n first stop i page) (other : FirstCandidate g n first stop i' page') :
    i = i' ∧ page = page' := by
  have forward := one.2 i' page' other.1
  have backward := other.2 i page one.1
  omega

theorem search_zones_first {g : Gmd} {n first stop i page : Nat} (extend : ZonesExtend g)
    (small : n < 64) :
    searchZones g n (stop - first) first = some (i, page) ↔
      FirstCandidate g n first stop i page := by
  have finds := search_zones_find extend small (stop - first) first
  have range : ∀ k z, Selected g n first stop k z →
      Selected g n first (first + (stop - first)) k z := by
    rintro k z ⟨low, high, entry, enough⟩
    exact ⟨low, by omega, entry, enough⟩
  have found : ∀ k p, searchZones g n (stop - first) first = some (k, p) →
      FirstCandidate g n first stop k p := by
    intro k p result
    rw [result] at finds
    obtain ⟨⟨z, ⟨low, high, entry, enough⟩, begins, before, clear, least⟩, earlier⟩ := finds
    refine ⟨⟨z, ⟨low, by omega, entry, enough⟩, begins, before, clear⟩, ?_⟩
    rintro i' page' ⟨z', selected, low', high', clear'⟩
    by_cases sooner : i' < k
    · exact absurd clear' (earlier i' z' sooner (range i' z' selected) page' low' high')
    · by_cases same : i' = k
      · subst same
        have zones : z' = z := Option.some.inj (selected.2.2.1.symm.trans entry)
        subst zones
        refine Or.inr ⟨rfl, ?_⟩
        by_contra lower
        exact least page' low' (by omega) clear'
      · exact Or.inl (by omega)
  constructor
  · exact found i page
  · intro candidate
    cases result : searchZones g n (stop - first) first with
    | none =>
      rw [result] at finds
      obtain ⟨z, selected, low, high, clear⟩ := candidate.1
      exact absurd clear (finds i z (range i z selected) page low high)
    | some other =>
      obtain ⟨k, p⟩ := other
      obtain ⟨same_zone, same_page⟩ := first_candidate_unique (found k p result) candidate
      rw [same_zone, same_page]

theorem alloc_pages_cases (g : Gmd) (zoneSelect : Int) {number : Int}
    (valid : 0 < number ∧ number < 64) :
    allocPages g zoneSelect number = (g, none) ∨
      ∃ first stop attr zone page, zoneRange g zoneSelect = some (first, stop, attr) ∧
        searchZones g number.toNat (stop - first) first = some (zone, page) ∧
        allocPages g zoneSelect number =
          (takePages g zone attr page number.toNat, some page) := by
  have inRange : ¬ (number ≥ 64 ∨ number ≤ 0) := by omega
  unfold allocPages
  rw [if_neg inRange]
  cases range : zoneRange g zoneSelect with
  | none => exact Or.inl rfl
  | some r =>
    obtain ⟨first, stop, attr⟩ := r
    cases result : searchZones g number.toNat (stop - first) first with
    | none => simp [result]
    | some found =>
      obtain ⟨zone, page⟩ := found
      simp only [result]
      exact Or.inr ⟨first, stop, attr, zone, page, rfl, result, rfl⟩

theorem alloc_pages_first {g : Gmd} {zoneSelect number : Int} {page : Nat}
    (extend : ZonesExtend g) (valid : 0 < number ∧ number < 64)
    (returned : (allocPages g zoneSelect number).2 = some page) :
    ∃ first stop attr zone, zoneRange g zoneSelect = some (first, stop, attr) ∧
      FirstCandidate g number.toNat first stop zone page ∧
      (allocPages g zoneSelect number).1 = takePages g zone attr page number.toNat := by
  rcases alloc_pages_cases g zoneSelect valid with nothing | found
  · rw [nothing] at returned
    cases returned
  · obtain ⟨first, stop, attr, zone, page', range, result, call⟩ := found
    rw [call] at returned
    cases returned
    refine ⟨first, stop, attr, zone, range, ?_, by rw [call]⟩
    exact (search_zones_first extend (by omega)).mp result

theorem alloc_pages_none {g : Gmd} {zoneSelect number : Int} (valid : 0 < number ∧ number < 64)
    (returned : (allocPages g zoneSelect number).2 = none) :
    (allocPages g zoneSelect number).1 = g := by
  rcases alloc_pages_cases g zoneSelect valid with nothing | found
  · rw [nothing]
  · obtain ⟨first, stop, attr, zone, page', range, result, call⟩ := found
    rw [call] at returned
    cases returned

theorem confined_in_zone {h : Usage} {zoneSelect number : Int} {flags : BitVec 64}
    (tidy : Tidy h) (valid : 0 < number ∧ number < 64) :
    Confined h (.alloc zoneSelect number flags) ↔
      ∀ page, (allocPages h.g zoneSelect number).2 = some page →
        InZone h.g zoneSelect page number.toNat := by
  constructor
  · intro confined page returned
    obtain ⟨first, stop, attr, zone, range, found, -⟩ :=
      alloc_pages_first tidy.laid.extend valid returned
    exact confined first stop attr zone page range found
  · intro inZone first stop attr zone page range found
    apply inZone page
    have result := (search_zones_first tidy.laid.extend (by omega)).mpr found
    have inRange : ¬ (number ≥ 64 ∨ number ≤ 0) := by omega
    simp [allocPages, inRange, range, result]

theorem alloc_clear {g : Gmd} {zoneSelect number : Int} {page : Nat} (extend : ZonesExtend g)
    (valid : 0 < number ∧ number < 64)
    (returned : (allocPages g zoneSelect number).2 = some page) :
    Clear g.bitsMap page number.toNat := by
  obtain ⟨first, stop, attr, zone, range, found, -⟩ := alloc_pages_first extend valid returned
  obtain ⟨z, selected, low, high, clear⟩ := found.1
  exact clear

theorem run_mapped {g : Gmd} {i page n : Nat} {z : Zone} (laid : Laid g)
    (entry : g.zones[i]? = some z) (low : startPage z ≤ page) (high : page + n ≤ endPage z) :
    ∀ l < n, (g.pages (page + l)).phyAddress / pageSize = page + l := by
  intro l small
  exact laid.mapped i z entry (page + l) (by omega) (by omega)

theorem zoned_of_same {g g' : Gmd} {r : Nat × Nat} (same : SameLayout g g')
    (zoned : ∃ (i : Nat) (z : Zone), g.zones[i]? = some z ∧ startPage z ≤ r.1 ∧
      r.1 + r.2 ≤ endPage z) :
    ∃ (i : Nat) (z : Zone), g'.zones[i]? = some z ∧ startPage z ≤ r.1 ∧
      r.1 + r.2 ≤ endPage z := by
  obtain ⟨i, z, entry, low, high⟩ := zoned
  have spans := congrArg (fun l : List (Nat × Nat) => l[i]?) same.spans
  simp only [List.getElem?_map, entry, Option.map_some] at spans
  cases after : g'.zones[i]? with
  | none => simp [after] at spans
  | some z' =>
    simp only [after, Option.map_some, Option.some.injEq, zoneSpan, Prod.mk.injEq] at spans
    refine ⟨i, z', after, ?_, ?_⟩
    · rw [startPage, spans.1]
      exact low
    · rw [endPage, spans.2]
      exact high

/- A new run of free pages inside a zone is apart from the live ones. -/
theorem take_tidy {h : Usage} {zone page n i : Nat} {attr : BitVec 64} {z : Zone} (tidy : Tidy h)
    (entry : h.g.zones[i]? = some z) (low : startPage z ≤ page) (high : page + n ≤ endPage z)
    (clear : Clear h.g.bitsMap page n) :
    Tidy ⟨takePages h.g zone attr page n, (page, n) :: h.runs⟩ := by
  have layout := take_pages_layout h.g zone attr page n
  have bits := bit_take_pages h.g zone attr (run_mapped tidy.laid entry low high)
  refine ⟨laid_of_same layout tidy.laid, ?_, ?_, ?_⟩
  · intro r member
    apply zoned_of_same layout
    rcases List.mem_cons.mp member with rfl | old
    · exact ⟨i, z, entry, low, high⟩
    · exact tidy.zoned r old
  · intro r member j within
    dsimp only
    rw [bits]
    rcases List.mem_cons.mp member with rfl | old
    · rw [if_pos within]
    · rw [tidy.taken r old j within, ite_self]
  · refine List.pairwise_cons.mpr ⟨?_, tidy.apart⟩
    rintro r member j ⟨inNew, inOld⟩
    have taken := tidy.taken r member j inOld
    have free := clear (j - page) (by have := inNew.1; have := inNew.2; omega)
    have place : page + (j - page) = j := by have := inNew.1; omega
    rw [place, taken] at free
    cases free

theorem alloc_tidy {h : Usage} {zoneSelect number : Int} (tidy : Tidy h)
    (valid : 0 < number ∧ number < 64)
    (inZone : ∀ page, (allocPages h.g zoneSelect number).2 = some page →
      InZone h.g zoneSelect page number.toNat) :
    Tidy ⟨(allocPages h.g zoneSelect number).1,
      record h.runs (allocPages h.g zoneSelect number).2 number⟩ := by
  cases returned : (allocPages h.g zoneSelect number).2 with
  | none =>
    rw [alloc_pages_none valid returned]
    exact tidy
  | some page =>
    obtain ⟨first, stop, attr, zone, range, found, taken⟩ :=
      alloc_pages_first tidy.laid.extend valid returned
    obtain ⟨-, -, -, i, z, -, -, -, entry, low, high⟩ := inZone page returned
    rw [taken]
    exact take_tidy tidy entry low high (alloc_clear tidy.laid.extend valid returned)

theorem free_tidy {h : Usage} {page : Nat} {number : Int} (tidy : Tidy h)
    (live : (page, number.toNat) ∈ h.runs) (valid : 0 < number ∧ number < 64) :
    Tidy ⟨freePages h.g (some page) number, h.runs.erase (page, number.toNat)⟩ := by
  obtain ⟨i, z, entry, low, high⟩ := tidy.zoned _ live
  have inRange : ¬ (number ≥ 64 ∨ number ≤ 0) := by omega
  have released : freePages h.g (some page) number = releasePages h.g page number.toNat := by
    simp [freePages, inRange]
  rw [released]
  have layout := release_pages_layout h.g page number.toNat
  have bits := bit_release_pages h.g (run_mapped tidy.laid entry low high)
  have parts : ((page, number.toNat) :: h.runs.erase (page, number.toNat)).Pairwise Apart := by
    refine ((List.perm_cons_erase live).pairwise_iff ?_).mp tidy.apart
    intro a b apart j both
    exact apart j both.symm
  refine ⟨laid_of_same layout tidy.laid, ?_, ?_, (List.pairwise_cons.mp parts).2⟩
  · intro r member
    exact zoned_of_same layout (tidy.zoned r (List.mem_of_mem_erase member))
  · intro r member j within
    have outside : ¬ Within page number.toNat j := by
      intro inside
      exact (List.pairwise_cons.mp parts).1 r member j ⟨inside, within⟩
    dsimp only
    rw [bits, if_neg outside]
    exact tidy.taken r (List.mem_of_mem_erase member) j within

theorem foreign_tidy {h : Usage} (memory : Words) (tidy : Tidy h) :
    Tidy ⟨overwrite h.g memory, h.runs⟩ := by
  have layout : SameLayout h.g (overwrite h.g memory) := set_bits_layout _ _
  refine ⟨laid_of_same layout tidy.laid, tidy.zoned, ?_, tidy.apart⟩
  intro r member j within
  obtain ⟨i, z, entry, low, high⟩ := tidy.zoned r member
  have reach := tidy.laid.held i z entry
  have inWord : j / 64 < h.g.bitsLength / 8 := by
    have below := within.2
    omega
  have taken := tidy.taken r member j within
  simpa [overwrite, setBits, bit, inWord] using taken

theorem step_exact (h : Usage) (e : Event) (t : Usage) (tidy : Tidy h) (step : Step h e t) :
    Exclusive h e t ↔ Confined h e := by
  cases step with
  | alloc zoneSelect number flags valid =>
    have iff : Confined h (.alloc zoneSelect number flags) ↔ _ := confined_in_zone tidy valid
    constructor
    · intro exclusive
      exact iff.mpr fun page returned => (exclusive.1 page returned).1
    · intro confined
      have inZone := iff.mp confined
      refine ⟨fun page returned => ⟨inZone page returned, ?_⟩, (alloc_tidy tidy valid inZone).apart⟩
      exact alloc_clear tidy.laid.extend valid returned
  | free page number live valid =>
    exact ⟨fun _ => trivial, fun _ => ⟨trivial, (free_tidy tidy live valid).apart⟩⟩
  | foreign memory => exact ⟨fun _ => trivial, fun _ => ⟨trivial, tidy.apart⟩⟩

theorem step_tidy (h : Usage) (e : Event) (t : Usage) (tidy : Tidy h) (step : Step h e t)
    (exclusive : Exclusive h e t) : Tidy t := by
  cases step with
  | alloc zoneSelect number flags valid =>
    exact alloc_tidy tidy valid fun page returned => (exclusive.1 page returned).1
  | free page number live valid => exact free_tidy tidy live valid
  | foreign memory => exact foreign_tidy memory tidy

theorem start_tidy {b : Machine} (covered : Covered b) : Tidy (start b) :=
  ⟨init_memory_laid covered, by simp [start], by simp [start], List.Pairwise.nil⟩

/-- Every run of the allocator hands out free pages of one zone and no page twice exactly if
the first run of clear bits that each search meets stays inside a zone. -/
theorem pages_exclusive_iff (b : Machine) (covered : Covered b) (es : List Event) (t : Usage) :
    Steps (Meeting Exclusive Step) (start b) es t ↔ Steps (Guarded Confined Step) (start b) es t :=
  steps_meeting_iff step_exact step_tidy (start_tidy covered)

/- 128MB with the hole below 1MB: one zone, the pages 1 to 63. -/
def machine128 : Machine where
  table := fun i =>
    if i = 0 then ⟨0, 0x9fc00, 1⟩ else if i = 1 then ⟨0x100000, 0x7f00000, 1⟩ else ⟨0, 0, 0⟩
  startBrk := 0xffff800000180000
  memory := fun _ => 0

theorem machine128_covered : Covered machine128 :=
  ⟨by decide +kernel, by decide +kernel⟩

theorem pages_exclusive_first_run :
    ∃ t, Steps (Meeting Exclusive Step) (start machine128) [.alloc zoneNormal 2 0, .free 1 2] t ∧
      t.runs = [] := by
  have tidy := start_tidy machine128_covered
  have valid : (0 : Int) < 2 ∧ (2 : Int) < 64 := by decide
  have returned : (allocPages (initMemory machine128) zoneNormal 2).2 = some 1 := by
    decide +kernel
  have confined : Confined (start machine128) (.alloc zoneNormal 2 0) := by
    refine (confined_in_zone tidy valid).mpr ?_
    intro page at_page
    cases at_page.symm.trans returned
    obtain ⟨z, entry, low, high⟩ : ∃ z, (initMemory machine128).zones[0]? = some z ∧
        startPage z ≤ 1 ∧ 1 + 2 ≤ endPage z :=
      ⟨_, rfl, by decide +kernel, by decide +kernel⟩
    exact ⟨0, 1, pgPTableMaped, 0, z, by decide +kernel, by decide, by decide, entry, low, high⟩
  refine ⟨_, (pages_exclusive_iff machine128 machine128_covered _ _).mpr (
    .cons ⟨.alloc _ zoneNormal 2 0 valid, confined⟩ <|
    .cons ⟨.free _ 1 2 ?_ valid, trivial⟩ <| .nil _), ?_⟩
  · simp [start, returned, record]
  · simp [start, returned, record]

/- With page 1 and the pages 62 and 63 free and the word behind the bitmap zero, a run of
   three pages begins at 62 and ends on page 64, outside the zone. -/
theorem pages_leave_the_zone :
    ∃ es h t, Steps Step (start machine128) es h ∧ Step h (.alloc zoneNormal 3 0) t ∧
      (allocPages h.g zoneNormal 3).2 = some 62 ∧ (∀ z ∈ h.g.zones, endPage z ≤ 64) ∧
      ¬ Exclusive h (.alloc zoneNormal 3 0) t := by
  refine ⟨[.alloc zoneNormal 1 0, .alloc zoneNormal 60 0, .free 1 1], _, _,
    .cons (.alloc _ zoneNormal 1 0 (by decide)) <|
    .cons (.alloc _ zoneNormal 60 0 (by decide)) <|
    .cons (.free _ 1 1 (by decide +kernel) (by decide)) <| .nil _,
    .alloc _ zoneNormal 3 0 (by decide), ?_⟩
  have bounded : ∀ z ∈ (freePages (allocPages (allocPages (initMemory machine128) zoneNormal 1).1
      zoneNormal 60).1 (some 1) 1).zones, endPage z ≤ 64 := by
    decide +kernel
  have returned : (allocPages (freePages (allocPages (allocPages (initMemory machine128)
      zoneNormal 1).1 zoneNormal 60).1 (some 1) 1) zoneNormal 3).2 = some 62 := by
    decide +kernel
  refine ⟨returned, bounded, ?_⟩
  rintro ⟨inZone, -⟩
  obtain ⟨⟨first, stop, attr, i, z, range, low, high, entry, begins, ends⟩, -⟩ :=
    inZone 62 returned
  have reach := bounded z (List.mem_of_getElem? entry)
  omega

end PageRuns

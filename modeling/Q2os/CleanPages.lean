import Q2os.PageRules

/- reference_count and attribute of the pages, and total_pages_link of the zones. page_init and
   page_clean change a count and its zone's sum together; alloc_pages and free_pages change
   neither. -/
namespace CleanPages
open Bitmap PageAllocator PageRuns KmallocPages PageRules

/- The references to the pages below n whose zone_struct is zone i. -/
def references (g : Gmd) (i : Nat) : Nat → BitVec 64
  | 0 => 0
  | n + 1 =>
    references g i n +
      if (g.pages n).zoneStruct = some i then (g.pages n).referenceCount else 0

def pageLimit (g : Gmd) : Nat := 64 * (g.bitsLength / 8)

/-- total_pages_link of every zone has changed since g₀ by as much as the references to its
pages. -/
def Linked (g₀ g : Gmd) : Prop :=
  ∀ (i : Nat) (z₀ z : Zone), g₀.zones[i]? = some z₀ → g.zones[i]? = some z →
    z.totalPagesLink - z₀.totalPagesLink =
      references g i (pageLimit g₀) - references g₀ i (pageLimit g₀)

structure Charge (g g' : Gmd) (p : Nat) (d : BitVec 64) : Prop where
  owner : ∀ q, (g'.pages q).zoneStruct = (g.pages q).zoneStruct
  count : ∀ q, (g'.pages q).referenceCount =
    (g.pages q).referenceCount + if q = p then d else 0
  zone : ∀ (i : Nat) (z' : Zone), g'.zones[i]? = some z' → ∃ z, g.zones[i]? = some z ∧
    z'.totalPagesLink = z.totalPagesLink + if (g.pages p).zoneStruct = some i then d else 0

theorem references_charge {g g' : Gmd} {p : Nat} {d : BitVec 64} (charge : Charge g g' p d)
    (i n : Nat) : references g' i n = references g i n +
      if p < n ∧ (g.pages p).zoneStruct = some i then d else 0 := by
  induction n with
  | zero => simp [references]
  | succ n ih =>
    rw [references, references, ih, charge.owner, charge.count]
    by_cases here : n = p
    · subst here
      have new : ¬ n < n := Nat.lt_irrefl n
      by_cases mine : (g.pages n).zoneStruct = some i
      · simp only [new, mine, Nat.lt_succ_self, and_self, and_true, if_true, if_false]
        grind
      · simp only [mine, and_false, if_false]
    · have below : p < n + 1 ↔ p < n := by omega
      simp only [here, below, if_false]
      grind

theorem linked_charge {g₀ g g' : Gmd} {p : Nat} {d : BitVec 64} (charge : Charge g g' p d)
    (inside : p < pageLimit g₀) (linked : Linked g₀ g) : Linked g₀ g' := by
  intro i z₀ z' entry after
  obtain ⟨z, before, total⟩ := charge.zone i z' after
  have change := linked i z₀ z entry before
  rw [references_charge charge, total]
  by_cases mine : (g.pages p).zoneStruct = some i
  · simp only [mine, inside, and_self, if_true]
    grind
  · simp only [mine, and_false, if_false]
    grind

theorem linked_refl (g : Gmd) : Linked g g := by
  intro i z₀ z before after
  rw [before] at after
  cases after
  rw [BitVec.sub_self, BitVec.sub_self]

/- What the four operations do to one page. -/

theorem store_charge {g : Gmd} {i : Nat} {v : Page} {f : Zone → Zone} {d : BitVec 64}
    (owner : v.zoneStruct = (g.pages i).zoneStruct)
    (count : v.referenceCount = (g.pages i).referenceCount + d)
    (total : ∀ z, (f z).totalPagesLink = z.totalPagesLink + d) :
    Charge g (updateZone (setPage g i v) v.zoneStruct f) i d := by
  constructor
  · intro q
    rw [update_zone_pages]
    by_cases here : q = i
    · rw [here]
      simp [setPage, owner]
    · simp [setPage, here]
  · intro q
    rw [update_zone_pages]
    by_cases here : q = i
    · rw [here]
      simp [setPage, count]
    · simp [setPage, here]
  · intro k z' entry
    obtain ⟨z, before, after⟩ := update_zone_entry entry
    refine ⟨z, before, ?_⟩
    rw [after, owner]
    split
    · exact total z
    · exact (BitVec.add_zero _).symm

/- A store to page i that leaves its references. -/
theorem store_quiet {g : Gmd} {i : Nat} {v : Page} (owner : v.zoneStruct = (g.pages i).zoneStruct)
    (count : v.referenceCount = (g.pages i).referenceCount) : Charge g (setPage g i v) i 0 := by
  have stored := @store_charge g i v id 0 owner (count.trans (BitVec.add_zero _).symm)
    fun z => (BitVec.add_zero _).symm
  constructor
  · intro q
    have same := stored.owner q
    rw [update_zone_pages] at same
    exact same
  · intro q
    have same := stored.count q
    rw [update_zone_pages] at same
    exact same
  · intro k z' entry
    refine ⟨z', entry, ?_⟩
    rw [ite_self]
    exact (BitVec.add_zero _).symm

theorem charge_trans {g h k : Gmd} {p : Nat} {d e : BitVec 64} (first : Charge g h p d)
    (second : Charge h k p e) : Charge g k p (d + e) := by
  constructor
  · exact fun q => (second.owner q).trans (first.owner q)
  · intro q
    rw [second.count, first.count]
    by_cases here : q = p
    · simp only [here, if_true]
      exact BitVec.add_assoc ..
    · simp [here]
  · intro i z'' entry
    obtain ⟨z', after, total'⟩ := second.zone i z'' entry
    obtain ⟨z, before, total⟩ := first.zone i z' after
    refine ⟨z, before, ?_⟩
    rw [total', total, first.owner]
    by_cases mine : (g.pages p).zoneStruct = some i
    · simp only [mine, if_true]
      exact BitVec.add_assoc ..
    · simp [mine]

theorem page_init_charge (g : Gmd) (i : Nat) (flags : BitVec 64) :
    ∃ d, Charge g (pageInit g i flags) i d := by
  have first : Charge g (setPage g i { g.pages i with attr := (g.pages i).attr ||| flags }) i 0 :=
    store_quiet rfl rfl
  unfold pageInit
  dsimp only
  split
  · exact ⟨0 + 1, charge_trans first (store_charge rfl rfl fun _ => rfl)⟩
  · exact ⟨0, first⟩

theorem page_init_away {g : Gmd} {i q : Nat} (flags : BitVec 64) (other : q ≠ i) :
    (pageInit g i flags).pages q = g.pages q := by
  unfold pageInit
  dsimp only
  split
  · rw [update_zone_pages]
    simp [setPage, other]
  · simp [setPage, other]

theorem page_init_fresh {g : Gmd} {i : Nat} (flags : BitVec 64)
    (fresh : (g.pages i).referenceCount = 0) :
    ((pageInit g i flags).pages i).referenceCount = 1 ∧
      ((pageInit g i flags).pages i).attr = (g.pages i).attr ||| flags := by
  unfold pageInit
  dsimp only
  rw [if_pos (Or.inl (by simp [setPage, fresh]))]
  rw [update_zone_pages]
  simp [setPage, fresh]

theorem page_clean_charge (g : Gmd) (i : Nat) : Charge g (pageClean g i) i (-1) := by
  have first : Charge g (updateZone (setPage g i
      { g.pages i with referenceCount := (g.pages i).referenceCount - 1 }) (g.pages i).zoneStruct
      countUnlinked) i (-1) :=
    store_charge rfl (BitVec.sub_eq_add_neg _ _) fun _ => BitVec.sub_eq_add_neg _ _
  unfold pageClean
  dsimp only
  have same : ((setPage g i { g.pages i with
      referenceCount := (g.pages i).referenceCount - 1 }).pages i) =
      { g.pages i with referenceCount := (g.pages i).referenceCount - 1 } := by
    simp [setPage]
  rw [same]
  split
  · have second := charge_trans first (store_quiet (i := i) (v := { g.pages i with
      referenceCount := (g.pages i).referenceCount - 1
      attr := (g.pages i).attr &&& pgPTableMaped }) (by rw [update_zone_pages, same])
      (by rw [update_zone_pages, same]))
    have nothing : (-1 : BitVec 64) + 0 = -1 := by decide
    rw [nothing] at second
    exact second
  · exact first

theorem page_clean_away {g : Gmd} {i q : Nat} (other : q ≠ i) :
    (pageClean g i).pages q = g.pages q := by
  unfold pageClean
  dsimp only
  split
  · simp [setPage, other]
  · simp [setPage, other]

theorem page_clean_at (g : Gmd) (i : Nat) :
    ((pageClean g i).pages i).referenceCount = (g.pages i).referenceCount - 1 := by
  unfold pageClean
  dsimp only
  split
  · simp [setPage]
  · simp [setPage]

theorem zone_quiet {g : Gmd} {m : Words} {z : Option Nat} {f : Zone → Zone} (p : Nat)
    (same : ∀ z, (f z).totalPagesLink = z.totalPagesLink) :
    Charge g (updateZone (setBits g m) z f) p 0 := by
  constructor
  · intro q
    rw [update_zone_pages]
    rfl
  · intro q
    rw [update_zone_pages, ite_self]
    exact (BitVec.add_zero _).symm
  · intro k z' entry
    obtain ⟨z₀, before, after⟩ := update_zone_entry entry
    refine ⟨z₀, before, ?_⟩
    rw [after, ite_self]
    refine Eq.trans ?_ (BitVec.add_zero _).symm
    split
    · exact same z₀
    · rfl

theorem take_charge (g : Gmd) (zone : Nat) (attr : BitVec 64) (p : Nat) :
    Charge g (takePages g zone attr p 1) p 0 := by
  have first : Charge g (updateZone (setBits g (setBit g.bitsMap ((g.pages p).phyAddress / pageSize)))
      (some zone) countUsed) p 0 := zone_quiet p fun _ => rfl
  have second := @store_quiet (updateZone (setBits g
    (setBit g.bitsMap ((g.pages p).phyAddress / pageSize))) (some zone) countUsed) p
    { g.pages p with attr := attr } rfl rfl
  exact charge_trans first second

theorem take_at (g : Gmd) (zone : Nat) (attr : BitVec 64) (p : Nat) :
    (takePages g zone attr p 1).pages = Function.update g.pages p { g.pages p with attr := attr } :=
  rfl

theorem release_charge (g : Gmd) (p : Nat) : Charge g (releasePages g p 1) p 0 := by
  have first : Charge g (updateZone (setBits g (clearBit g.bitsMap ((g.pages p).phyAddress / pageSize)))
      (g.pages p).zoneStruct countFreed) p 0 := zone_quiet p fun _ => rfl
  refine charge_trans first (store_quiet ?_ ?_)
  · rw [update_zone_pages]
    rfl
  · rw [update_zone_pages]
    rfl

theorem release_at (g : Gmd) (p : Nat) :
    (releasePages g p 1).pages = Function.update g.pages p { g.pages p with attr := 0 } := by
  unfold releasePages
  dsimp only
  unfold setPage
  dsimp only
  rw [update_zone_pages]
  rfl

/- The pages in use. -/

/-- boot are the pages that are never given back, raw those handed out by alloc_pages without a
page_init, and g₀ is the state at boot. -/
structure Charged (boot : Nat → Prop) (raw : List Nat) (g₀ g : Gmd) : Prop where
  layout : SameLayout g₀ g
  linked : Linked g₀ g
  taken : ∀ p, boot p → bit g.bitsMap p = true
  free : ∀ p < pageLimit g₀, bit g.bitsMap p = false →
    (g.pages p).referenceCount = 0 ∧ (g.pages p).attr = 0
  inited : ∀ p < pageLimit g₀, ¬ boot p → bit g.bitsMap p = true → p ∉ raw →
    (g.pages p).referenceCount = 1
  handed : ∀ p ∈ raw, p < pageLimit g₀ ∧ ¬ boot p ∧ bit g.bitsMap p = true ∧
    (g.pages p).referenceCount = 0

variable {boot : Nat → Prop} {raw : List Nat} {g₀ g : Gmd} {p : Nat}

theorem take_charged (zone : Nat) (attr : BitVec 64) (charged : Charged boot raw g₀ g)
    (small : p < pageLimit g₀) (clear : bit g.bitsMap p = false)
    (address : (g.pages p).phyAddress = pageSize * p) :
    Charged boot (p :: raw) g₀ (takePages g zone attr p 1) := by
  have bits := bit_take_one zone attr address
  have pages := take_at g zone attr p
  have charge := take_charge g zone attr p
  have early : ¬ boot p := by
    intro set_aside
    rw [charged.taken p set_aside] at clear
    cases clear
  have away : ∀ q, q ≠ p → (takePages g zone attr p 1).pages q = g.pages q := by
    intro q other
    rw [pages, Function.update_of_ne other]
  refine ⟨same_layout_trans charged.layout (take_pages_layout g zone attr p 1),
    linked_charge charge small charged.linked, ?_, ?_, ?_, ?_⟩
  · intro q set_aside
    rw [bits, charged.taken q set_aside, ite_self]
  · intro q below unset
    rw [bits] at unset
    by_cases here : p = q
    · rw [if_pos here] at unset
      cases unset
    · rw [if_neg here] at unset
      rw [away q (Ne.symm here)]
      exact charged.free q below unset
  · intro q below later set absent
    have other : q ≠ p := fun same => absent (same ▸ List.mem_cons_self)
    rw [bits, if_neg (Ne.symm other)] at set
    rw [away q other]
    exact charged.inited q below later set fun member => absent (List.mem_cons_of_mem p member)
  · intro q member
    rcases List.mem_cons.mp member with rfl | old
    · refine ⟨small, early, ?_, ?_⟩
      · rw [bits, if_pos rfl]
      · rw [pages, Function.update_self]
        exact (charged.free q small clear).1
    · obtain ⟨below, later, set, unused⟩ := charged.handed q old
      have other : q ≠ p := by
        intro same
        rw [same, clear] at set
        cases set
      refine ⟨below, later, ?_, ?_⟩
      · rw [bits, set, ite_self]
      · rw [away q other]
        exact unused

theorem init_charged (flags : BitVec 64) (charged : Charged boot (p :: raw) g₀ g)
    (absent : p ∉ raw) : Charged boot raw g₀ (pageInit g p flags) := by
  obtain ⟨d, charge⟩ := page_init_charge g p flags
  obtain ⟨small, later, set, unused⟩ := charged.handed p List.mem_cons_self
  refine ⟨same_layout_trans charged.layout (page_init_layout g p flags),
    linked_charge charge small charged.linked, ?_, ?_, ?_, ?_⟩
  · intro q set_aside
    rw [page_init_bits]
    exact charged.taken q set_aside
  · intro q below clear
    rw [page_init_bits] at clear
    have other : q ≠ p := by
      intro same
      rw [same, set] at clear
      cases clear
    rw [page_init_away flags other]
    exact charged.free q below clear
  · intro q below late marked out
    rw [page_init_bits] at marked
    by_cases here : q = p
    · rw [here]
      exact (page_init_fresh flags unused).1
    · rw [page_init_away flags here]
      exact charged.inited q below late marked fun member =>
        out ((List.mem_cons.mp member).resolve_left here)
  · intro q member
    obtain ⟨below, late, marked, none⟩ := charged.handed q (List.mem_cons_of_mem p member)
    have other : q ≠ p := fun same => absent (same ▸ member)
    rw [page_init_bits, page_init_away flags other]
    exact ⟨below, late, marked, none⟩

theorem clean_charged (charged : Charged boot raw g₀ g) (small : p < pageLimit g₀)
    (later : ¬ boot p) (set : bit g.bitsMap p = true) (absent : p ∉ raw) :
    Charged boot (p :: raw) g₀ (pageClean g p) := by
  have used := charged.inited p small later set absent
  refine ⟨same_layout_trans charged.layout (page_clean_layout g p),
    linked_charge (page_clean_charge g p) small charged.linked, ?_, ?_, ?_, ?_⟩
  · intro q set_aside
    rw [page_clean_bits]
    exact charged.taken q set_aside
  · intro q below clear
    rw [page_clean_bits] at clear
    have other : q ≠ p := by
      intro same
      rw [same, set] at clear
      cases clear
    rw [page_clean_away other]
    exact charged.free q below clear
  · intro q below late marked out
    rw [page_clean_bits] at marked
    have other : q ≠ p := fun same => out (same ▸ List.mem_cons_self)
    rw [page_clean_away other]
    exact charged.inited q below late marked fun member => out (List.mem_cons_of_mem p member)
  · intro q member
    rw [page_clean_bits]
    rcases List.mem_cons.mp member with rfl | old
    · refine ⟨small, later, set, ?_⟩
      rw [page_clean_at, used]
      rfl
    · have other : q ≠ p := fun same => absent (same ▸ old)
      rw [page_clean_away other]
      exact charged.handed q old

theorem release_charged (charged : Charged boot (p :: raw) g₀ g) (absent : p ∉ raw)
    (address : (g.pages p).phyAddress = pageSize * p) :
    Charged boot raw g₀ (releasePages g p 1) := by
  have bits := bit_release_one address
  have pages := release_at g p
  obtain ⟨small, later, set, unused⟩ := charged.handed p List.mem_cons_self
  have away : ∀ q, q ≠ p → (releasePages g p 1).pages q = g.pages q := by
    intro q other
    rw [pages, Function.update_of_ne other]
  refine ⟨same_layout_trans charged.layout (release_pages_layout g p 1),
    linked_charge (release_charge g p) small charged.linked, ?_, ?_, ?_, ?_⟩
  · intro q set_aside
    have other : p ≠ q := fun same => later (same ▸ set_aside)
    rw [bits, if_neg other]
    exact charged.taken q set_aside
  · intro q below clear
    rw [bits] at clear
    by_cases here : p = q
    · subst here
      rw [pages, Function.update_self]
      exact ⟨unused, rfl⟩
    · rw [if_neg here] at clear
      rw [away q (Ne.symm here)]
      exact charged.free q below clear
  · intro q below late marked out
    rw [bits] at marked
    by_cases here : p = q
    · rw [if_pos here] at marked
      cases marked
    · rw [if_neg here] at marked
      rw [away q (Ne.symm here)]
      exact charged.inited q below late marked fun member =>
        out ((List.mem_cons.mp member).resolve_left (Ne.symm here))
  · intro q member
    obtain ⟨below, late, marked, none⟩ := charged.handed q (List.mem_cons_of_mem p member)
    have other : q ≠ p := fun same => absent (same ▸ member)
    rw [bits, if_neg (Ne.symm other), away q other]
    exact ⟨below, late, marked, none⟩

def Rooted (g₀ : Gmd) : Prop :=
  ∀ p, (g₀.pages p).phyAddress = pageSize * p → p < pageLimit g₀

/-- Each page that kmalloc or a cache takes is clean, and is clean again when it is given back. -/
theorem charged_rule {other : List Nat} (rooted : Rooted g₀) (covers : ∀ p ∈ raw, p ∈ other) :
    PageRule boot other (Charged boot raw g₀) := by
  constructor
  · intro g g' p pages call charged
    have takes := alloc_one pages call
    have small := rooted p ((charged.layout.phys p).symm.trans takes.address)
    have valid : (0 : Int) < 1 ∧ (1 : Int) < 64 := by decide
    obtain ⟨first, stop, attr, zone, -, -, taken⟩ :=
      @alloc_pages_first g zoneNormal 1 p pages.extend valid (by rw [call])
    rw [call] at taken
    have after : g' = takePages g zone attr p 1 := taken
    rw [after]
    have absent : p ∉ raw := by
      intro member
      have set := (charged.handed p member).2.2.1
      rw [takes.free] at set
      cases set
    exact init_charged pgKernel (take_charged zone attr charged small takes.free takes.address) absent
  · intro g p pages own charged
    have small := rooted p ((charged.layout.phys p).symm.trans own.mapped)
    have absent : p ∉ raw := fun member => own.apart (covers p member)
    have address : ((pageClean g p).pages p).phyAddress = pageSize * p :=
      ((page_clean_layout g p).phys p).trans own.mapped
    rw [free_one_eq]
    exact release_charged (clean_charged charged small own.later own.marked absent) absent address

end CleanPages

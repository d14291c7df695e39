import Q2os.BootMap
import Q2os.ForkedSpace
import Q2os.TableDirectory

/- pagetable_init: the kernel's tables map all RAM of the zones to where PAGE_OFFSET begins. -/
namespace KernelMap
open PageAllocator PageRuns Kmalloc SlabInit BootMap TableTree AddressSpace

def pageKernelDir : Nat := 0x3
def pageKernelPage : Nat := 0x83

def ensureKernelTable (k : Kernel) (tmp : Nat) : Option (Kernel × List Nat) :=
  if k.memory tmp = 0 then
    (takeTable k).map fun r =>
      ({ r.1 with memory :=
          Function.update (clearWords r.1.memory r.2 512) tmp (r.2 ||| pageKernelDir) }, [r.2])
  else some (k, [])

/- The body of the loop over the pages of a zone, with the tables that it takes. Get_gdt is the pgd of
   init_task. -/
def mapKernelPage (k : Kernel) (phyAddress : Nat) : Option (Kernel × List Nat) := do
  let v := physToVirt phyAddress
  let tmp := slotOf k.initPgd (gdtIndex v)
  let (k, first) ← ensureKernelTable k tmp
  let tmp := slotOf (k.memory tmp) (index1G v)
  let (k, second) ← ensureKernelTable k tmp
  let tmp := slotOf (k.memory tmp) (index2M v)
  return ({ k with memory := Function.update k.memory tmp (phyAddress ||| pageKernelPage) },
    first ++ second)

def mapZone (g : Gmd) (z : Zone) (k : Kernel) : Nat → Option (Kernel × List Nat)
  | 0 => some (k, [])
  | j + 1 => do
    let (k, taken) ← mapZone g z k j
    let (k, more) ← mapKernelPage k (g.pages (z.pagesGroup + j)).phyAddress
    return (k, taken ++ more)

def mapZones (g : Gmd) (k : Kernel) (i : Nat) : List Zone → Option (Kernel × List Nat)
  | [] => some (k, [])
  | z :: rest =>
    if g.zoneUnmapedIndex ≠ 0 ∧ i = g.zoneUnmapedIndex then some (k, [])
    else do
      let (k, taken) ← mapZone g z k z.pagesLength
      let (k, more) ← mapZones g k (i + 1) rest
      return (k, taken ++ more)

/- The zones and the addresses of the pages are those of init_memory: kmalloc changes neither. The
   three reads before the loop have no effect. -/
def pagetableInit (g : Gmd) (k : Kernel) : Option (Kernel × List Nat) := mapZones g k 0 g.zones

def isPage (entry : Nat) : Prop := entry / 128 % 2 = 1

instance (entry : Nat) : Decidable (isPage entry) := inferInstanceAs (Decidable (_ = _))

def index4K (v : Nat) : Nat := v / 2 ^ 12 % 512

def translatePde (memory : Words) (pde v : Nat) : Option Nat :=
  if pde % 2 = 0 then none
  else if isPage pde then some (pde / 2 ^ 21 * 2 ^ 21 + v % 2 ^ 21)
  else
    let pte := memory (slotOf pde (index4K v))
    if pte % 2 = 0 then none else some (base pte + v % 2 ^ 12)

/-- The walk of the processor over four levels of tables. -/
def translate (memory : Words) (cr3 v : Nat) : Option Nat :=
  let pml4e := memory (slotOf cr3 (gdtIndex v))
  if pml4e % 2 = 0 then none
  else
    let pdpte := memory (slotOf pml4e (index1G v))
    if pdpte % 2 = 0 then none
    else if isPage pdpte then some (pdpte / 2 ^ 30 * 2 ^ 30 + v % 2 ^ 30)
    else translatePde memory (memory (slotOf pdpte (index2M v))) v

def shape : Shape := ⟨3, fun n => if n = 0 then 256 else 0, pageKernelDir⟩

theorem shape_ok : shape.Ok := ⟨by decide, by decide⟩

/-- The tables of the kernel half, whose leaves are empty or pages of 2MB. -/
structure Tables (k : Kernel) (table : List Nat → Option Nat) : Prop extends
    Directory shape k.memory k.initPgd table where
  leaves : ∀ path i, path.length = 2 → i < 512 →
    leaf k.memory table path i % 2 = 0 ∨ isPage (leaf k.memory table path i)

/-- A block for each table: what kmalloc gives when it succeeds. -/
structure Usable (table : List Nat → Option Nat) (taken : List Nat) : Prop where
  nodup : taken.Nodup
  aligned : ∀ t ∈ taken, Aligned t
  fresh : ∀ t ∈ taken, ∀ path, table path ≠ some t

def dirOf (v : Nat) : List Nat := [gdtIndex v, index1G v]

section half
variable {v : Nat}

def Upper (v : Nat) : Prop := pageOffset ≤ v ∧ v < 2 ^ 64

theorem upper_indices (upper : Upper v) : 256 ≤ gdtIndex v ∧ gdtIndex v < 512 ∧
    index1G v < 512 ∧ index2M v < 512 := by
  obtain ⟨low, high⟩ := upper
  unfold pageOffset at low
  unfold gdtIndex index1G index2M
  omega

theorem virt_upper {a : Nat} (small : a < userEnd) : Upper (physToVirt a) := by
  unfold Upper physToVirt pageOffset
  unfold userEnd at small
  omega

theorem dir_same {w : Nat} (upper : Upper v) (upper' : Upper w) :
    dirOf w = dirOf v ∧ index2M w = index2M v ↔
      (w - pageOffset) / pageSize = (v - pageOffset) / pageSize := by
  obtain ⟨low, high⟩ := upper
  obtain ⟨low', high'⟩ := upper'
  obtain ⟨x, rfl⟩ := Nat.exists_eq_add_of_le low
  obtain ⟨y, rfl⟩ := Nat.exists_eq_add_of_le low'
  rw [Nat.add_sub_cancel_left, Nat.add_sub_cancel_left]
  unfold dirOf gdtIndex index1G index2M
  unfold pageOffset at *
  unfold pageSize
  simp only [List.cons.injEq, and_true]
  omega

end half

def pageOf (pde v : Nat) : Option Nat :=
  if pde % 2 = 0 then none else some (pde / 2 ^ 21 * 2 ^ 21 + v % 2 ^ 21)

section step
variable {k k' : Kernel} {table : List Nat → Option Nat} {v : Nat}

theorem entry_leads {t : Nat} (aligned : Aligned t) : ¬ entryOf shape (some t) % 2 = 0 ∧
    ¬ isPage (entryOf shape (some t)) ∧ base (entryOf shape (some t)) = t := by
  have entry : entryOf shape (some t) = t + 3 := rfl
  refine ⟨?_, ?_, base_entry aligned shape_ok.small⟩
  · rw [entry]
    unfold Aligned tableBytes at aligned
    omega
  · rw [entry]
    unfold isPage
    unfold Aligned tableBytes at aligned
    omega

theorem leaf_absent {memory : Words} {path : List Nat} {i : Nat} (absent : table path = none) :
    leaf memory table path i = 0 := by
  unfold leaf
  rw [absent]

theorem leaf_listed {memory : Words} {path : List Nat} {i t : Nat} (listed : table path = some t) :
    leaf memory table path i = memory (slot t i) := by
  unfold leaf
  rw [listed]

/-- An address of the kernel half is found through the leaf of its directory. -/
theorem Tables.translate (tables : Tables k table) (upper : Upper v) :
    translate k.memory k.initPgd v = pageOf (leaf k.memory table (dirOf v) (index2M v)) v := by
  obtain ⟨low, high, middle, small⟩ := upper_indices upper
  have root := tables.root
  have pgd := base_aligned (tables.aligned _ _ root)
  have first := tables.entries [] k.initPgd (gdtIndex v) root (by decide) ⟨low, high⟩
  rw [List.nil_append] at first
  have whole := tables.leaves (dirOf v) (index2M v) rfl small
  unfold KernelMap.translate slotOf
  dsimp only
  rw [pgd, first]
  cases pdpt : table [gdtIndex v] with
  | none =>
    have absent : table (dirOf v) = none := tables.closed [gdtIndex v] (index1G v) pdpt
    rw [leaf_absent absent]
    rfl
  | some t =>
    obtain ⟨present, _, leads⟩ := entry_leads (tables.aligned _ t pdpt)
    have second := tables.entries [gdtIndex v] t (index1G v) pdpt (show 1 + 1 < 3 by decide)
      ⟨Nat.zero_le _, middle⟩
    have path : [gdtIndex v] ++ [index1G v] = dirOf v := rfl
    rw [path] at second
    rw [if_neg present, leads, second]
    cases pd : table (dirOf v) with
    | none =>
      rw [leaf_absent pd]
      rfl
    | some u =>
      obtain ⟨present', directory, leads'⟩ := entry_leads (tables.aligned _ u pd)
      rw [leaf_listed pd] at whole ⊢
      rw [if_neg present', if_neg directory, leads']
      unfold translatePde pageOf
      rcases whole with empty | page
      · rw [if_pos empty, if_pos empty]
      · rw [if_pos page]

/-- What a step that may take tables leaves. -/
structure Grown (k k' : Kernel) (table table' : List Nat → Option Nat) (taken : List Nat) :
    Prop where
  tables : Tables k' table'
  root : k'.initPgd = k.initPgd
  kept : ∀ path t, table path = some t → table' path = some t
  new : ∀ path t, table' path = some t → table path = some t ∨ t ∈ taken

theorem take_table_same {t : Nat} (call : takeTable k = some (k', t)) :
    k'.memory = k.memory ∧ k'.initPgd = k.initPgd := by
  unfold takeTable at call
  split at call
  · cases call
    exact ⟨rfl, rfl⟩
  · cases call

theorem ensure_grown {path : List Nat} {t i : Nat} {taken : List Nat} (tables : Tables k table)
    (listed : table path = some t) (deep : path.length + 1 < shape.depth)
    (index : Counts shape path.length i)
    (call : ensureKernelTable k (slot t i) = some (k', taken)) (usable : Usable table taken) :
    ∃ table' u, Grown k k' table table' taken ∧ table' (path ++ [i]) = some u ∧
      slotOf (k'.memory (slot t i)) = slot u ∧
      ∀ path' j, path'.length = 2 → j < 512 →
        leaf k'.memory table' path' j = leaf k.memory table path' j := by
  have entry := tables.entries path t i listed deep index
  unfold ensureKernelTable at call
  split at call
  · next empty =>
    obtain ⟨⟨k₁, u⟩, took, made⟩ := Option.map_eq_some_iff.mp call
    obtain ⟨memory, root⟩ := take_table_same took
    cases made
    have aligned := usable.aligned u List.mem_cons_self
    have fresh := usable.fresh u List.mem_cons_self
    have absent : table (path ++ [i]) = none := by
      cases below : table (path ++ [i]) with
      | none => rfl
      | some w =>
        rw [empty, below] at entry
        cases entry
    have place := tables.aligned path t listed
    have links : Links shape k.memory
        (Function.update (clearWords k₁.memory u 512) (slot t i) (u ||| pageKernelDir)) table t i u := by
      refine ⟨?_, fun j small => ?_, fun path' w j old small apart => ?_⟩
      · rw [Function.update_self]
        exact or_tag aligned (by decide)
      · have differ : u ≠ t := fun same => fresh path (same ▸ listed)
        rw [Function.update_of_ne (slot_ne aligned place differ small index.2)]
        exact clear_own _ small
      · have differ : w ≠ u := fun same => fresh path' (same ▸ old)
        rw [Function.update_of_ne apart, ← memory]
        exact clear_apart _ (tables.aligned _ _ old) aligned differ small
    have directory := tables.toDirectory.link listed deep index absent aligned fresh links
    have leaves : ∀ path' j, path'.length = 2 → j < 512 → leaf
        (Function.update (clearWords k₁.memory u 512) (slot t i) (u ||| pageKernelDir))
        (Function.update table (path ++ [i]) (some u)) path' j = leaf k.memory table path' j := by
      intro path' j long small
      exact tables.toDirectory.link_leaf listed deep index.2 absent links (by rw [long]; rfl) small
    refine ⟨Function.update table (path ++ [i]) (some u), u, ⟨⟨?_, ?_⟩, root, ?_, ?_⟩, ?_, ?_, leaves⟩
    · rw [root]
      exact directory
    · intro path' j long small
      rw [leaves path' j long small]
      exact tables.leaves path' j long small
    · intro path' w old
      rw [Function.update_of_ne]
      · exact old
      · rintro rfl
        rw [absent] at old
        cases old
    · intro path' w here
      by_cases same : path' = path ++ [i]
      · rw [same, Function.update_self] at here
        cases here
        exact Or.inr List.mem_cons_self
      · rw [Function.update_of_ne same] at here
        exact Or.inl here
    · exact Function.update_self ..
    · unfold slotOf
      dsimp only
      rw [links.entry, base_entry aligned shape_ok.small]
  · next full =>
    cases call
    cases below : table (path ++ [i]) with
    | none =>
      rw [below] at entry
      exact absurd entry full
    | some u =>
      refine ⟨table, u, ⟨tables, rfl, fun _ _ old => old, fun _ _ here => Or.inl here⟩, below, ?_,
        fun _ _ _ _ => rfl⟩
      unfold slotOf
      rw [entry, below, entryOf, base_entry (tables.aligned _ _ below) shape_ok.small]

theorem Usable.append {first second : List Nat} (usable : Usable table (first ++ second)) :
    Usable table first := by
  obtain ⟨left, _, _⟩ := List.nodup_append.mp usable.nodup
  exact ⟨left, fun t member => usable.aligned t (List.mem_append_left _ member),
    fun t member => usable.fresh t (List.mem_append_left _ member)⟩

theorem Usable.rest {first second : List Nat} {table' : List Nat → Option Nat}
    (usable : Usable table (first ++ second)) (grown : Grown k k' table table' first) :
    Usable table' second := by
  obtain ⟨_, right, apart⟩ := List.nodup_append.mp usable.nodup
  refine ⟨right, fun t member => usable.aligned t (List.mem_append_right _ member),
    fun t member path here => ?_⟩
  rcases grown.new path t here with old | taken
  · exact usable.fresh t (List.mem_append_right _ member) path old
  · exact apart t taken t member rfl

theorem Grown.trans {k'' : Kernel} {table' table'' : List Nat → Option Nat} {first second : List Nat}
    (grown : Grown k k' table table' first) (more : Grown k' k'' table' table'' second) :
    Grown k k'' table table'' (first ++ second) := by
  refine ⟨more.tables, more.root.trans grown.root,
    fun path t old => more.kept path t (grown.kept path t old), fun path t here => ?_⟩
  rcases more.new path t here with old | taken
  · exact (grown.new path t old).imp_right (List.mem_append_left _)
  · exact Or.inr (List.mem_append_right _ taken)

theorem page_of_entry {p : Nat} (low : pageOffset ≤ v) (here : (v - pageOffset) / pageSize = p) :
    pageOf (pageSize * p + 0x83) v = some (v - pageOffset) := by
  obtain ⟨x, rfl⟩ := Nat.exists_eq_add_of_le low
  rw [Nat.add_sub_cancel_left] at here ⊢
  have offset : (pageOffset + x) % 2 ^ 21 = x % 2 ^ 21 := by
    unfold pageOffset
    omega
  unfold pageOf
  rw [offset]
  unfold pageSize at *
  rw [if_neg (by omega), Option.some.injEq]
  omega

/-- One page more: its addresses are mapped to it, and no other address of the kernel half changes. -/
theorem map_kernel_page_spec {p : Nat} {taken : List Nat} (tables : Tables k table)
    (small : pageSize * p < userEnd) (call : mapKernelPage k (pageSize * p) = some (k', taken))
    (usable : Usable table taken) : ∃ table', Grown k k' table table' taken ∧
      ∀ v, Upper v → translate k'.memory k'.initPgd v =
        if (v - pageOffset) / pageSize = p then some (v - pageOffset)
        else translate k.memory k.initPgd v := by
  unfold mapKernelPage at call
  have upper := virt_upper small
  obtain ⟨low, high, middle, last⟩ := upper_indices upper
  have number : (physToVirt (pageSize * p) - pageOffset) / pageSize = p := by
    unfold physToVirt
    rw [Nat.add_sub_cancel]
    exact Nat.mul_div_cancel_left p (by decide)
  revert call
  generalize virtual : physToVirt (pageSize * p) = a at *
  intro call
  dsimp only at call
  obtain ⟨⟨k₁, first⟩, step₁, call⟩ := Option.bind_eq_some_iff.mp call
  dsimp only at call
  obtain ⟨⟨k₂, second⟩, step₂, call⟩ := Option.bind_eq_some_iff.mp call
  cases call
  have root : slotOf k.initPgd (gdtIndex a) = slot k.initPgd (gdtIndex a) := by
    rw [slotOf, base_aligned (tables.aligned _ _ tables.root)]
  rw [root] at step₁ step₂ ⊢
  obtain ⟨table₁, t, grown₁, listed₁, slots₁, leaves₁⟩ := ensure_grown tables tables.root
    (by decide) ⟨low, high⟩ step₁ usable.append
  rw [slots₁] at step₂ ⊢
  obtain ⟨table₂, u, grown₂, listed₂, slots₂, leaves₂⟩ := ensure_grown grown₁.tables listed₁
    (show 1 + 1 < 3 by decide) ⟨Nat.zero_le _, middle⟩ step₂ (usable.rest grown₁)
  dsimp only at slots₂ ⊢
  rw [slots₂]
  have dir : table₂ (dirOf a) = some u := listed₂
  have grown := grown₁.trans grown₂
  have entry : pageSize * p ||| pageKernelPage = pageSize * p + 0x83 :=
    or_tag (page_aligned p) (by decide)
  rw [entry]
  have stored := fun path j => @Directory.store_leaf _ _ _ _ (dirOf a) u (index2M a)
    grown₂.tables.toDirectory dir last (pageSize * p + 0x83) path j
  have final : Tables { k₂ with
      memory := Function.update k₂.memory (slot u (index2M a)) (pageSize * p + 0x83) } table₂ := by
    refine ⟨grown₂.tables.toDirectory.store dir rfl last _, fun path j long small => ?_⟩
    rw [stored path j small]
    split
    · right
      unfold isPage pageSize
      omega
    · exact grown₂.tables.leaves path j long small
  refine ⟨table₂, ⟨final, grown.root, grown.kept, grown.new⟩, fun v upper' => ?_⟩
  obtain ⟨_, _, _, small'⟩ := upper_indices upper'
  rw [final.translate upper', tables.translate upper', stored _ _ small']
  have same := dir_same upper upper'
  rw [number] at same
  by_cases here : (v - pageOffset) / pageSize = p
  · rw [if_pos (same.mpr here), if_pos here]
    exact page_of_entry upper'.1 here
  · rw [if_neg (fun both => here (same.mp both)), if_neg here, leaves₂ _ _ rfl small',
      leaves₁ _ _ rfl small']

/-- The addresses of some pages are mapped to them, and no other address of the kernel half changes. -/
structure Maps (k k' : Kernel) (table table' : List Nat → Option Nat) (taken : List Nat)
    (pages : Nat → Prop) : Prop extends Grown k k' table table' taken where
  inside : ∀ v, Upper v → pages ((v - pageOffset) / pageSize) →
    KernelMap.translate k'.memory k'.initPgd v = some (v - pageOffset)
  outside : ∀ v, Upper v → ¬ pages ((v - pageOffset) / pageSize) →
    KernelMap.translate k'.memory k'.initPgd v = KernelMap.translate k.memory k.initPgd v

theorem maps_none {pages : Nat → Prop} (tables : Tables k table) (none_ : ∀ p, ¬ pages p) :
    Maps k k table table [] pages where
  tables := tables
  root := rfl
  kept := fun _ _ old => old
  new := fun _ _ here => Or.inl here
  inside := fun _ _ here => absurd here (none_ _)
  outside := fun _ _ _ => rfl

theorem Maps.more {k'' : Kernel} {table' table'' : List Nat → Option Nat} {first second : List Nat}
    {pages more both : Nat → Prop} (maps : Maps k k' table table' first pages)
    (next : Maps k' k'' table' table'' second more) (all : ∀ p, both p ↔ pages p ∨ more p) :
    Maps k k'' table table'' (first ++ second) both := by
  refine ⟨maps.toGrown.trans next.toGrown, fun v upper here => ?_, fun v upper other => ?_⟩
  · by_cases last : more ((v - pageOffset) / pageSize)
    · exact next.inside v upper last
    · rw [next.outside v upper last]
      exact maps.inside v upper (((all _).mp here).resolve_right last)
  · rw [next.outside v upper fun last => other ((all _).mpr (Or.inr last))]
    exact maps.outside v upper fun before => other ((all _).mpr (Or.inl before))

theorem map_zone_maps {g : Gmd} {z : Zone} {n : Nat} {taken : List Nat} (tables : Tables k table)
    (known : ∀ j < n, (g.pages (z.pagesGroup + j)).phyAddress = pageSize * (z.pagesGroup + j) ∧
      pageSize * (z.pagesGroup + j) < userEnd)
    (call : mapZone g z k n = some (k', taken)) (usable : Usable table taken) :
    ∃ table', Maps k k' table table' taken (PageRuns.Within z.pagesGroup n) := by
  induction n generalizing k' taken with
  | zero =>
    cases call
    refine ⟨table, maps_none tables fun p => ?_⟩
    unfold PageRuns.Within
    omega
  | succ n ih =>
    rw [mapZone] at call
    obtain ⟨⟨k₁, first⟩, before, call⟩ := Option.bind_eq_some_iff.mp call
    dsimp only at call
    obtain ⟨⟨k₂, second⟩, page, made⟩ := Option.bind_eq_some_iff.mp call
    cases made
    obtain ⟨table₁, maps⟩ := ih (fun j less => known j (by omega)) before usable.append
    obtain ⟨address, small⟩ := known n (Nat.lt_succ_self n)
    rw [address] at page
    obtain ⟨table₂, grown, translated⟩ := map_kernel_page_spec maps.tables small page
      (usable.rest maps.toGrown)
    have next : Maps k₁ k₂ table₁ table₂ second fun p => p = z.pagesGroup + n :=
      ⟨grown, fun v upper here => by rw [translated v upper, if_pos here],
        fun v upper other => by rw [translated v upper, if_neg other]⟩
    refine ⟨table₂, maps.more next fun p => ?_⟩
    unfold PageRuns.Within
    omega

def Reached (g : Gmd) (zones : List Zone) (i p : Nat) : Prop :=
  ∃ (m : Nat) (z : Zone), zones[m]? = some z ∧
    (g.zoneUnmapedIndex = 0 ∨ i + m < g.zoneUnmapedIndex) ∧
      PageRuns.Within z.pagesGroup z.pagesLength p

theorem map_zones_maps {g : Gmd} {zones : List Zone} {i : Nat} {taken : List Nat}
    (tables : Tables k table) (early : g.zoneUnmapedIndex = 0 ∨ i ≤ g.zoneUnmapedIndex)
    (known : ∀ p, Reached g zones i p →
      (g.pages p).phyAddress = pageSize * p ∧ pageSize * p < userEnd)
    (call : mapZones g k i zones = some (k', taken)) (usable : Usable table taken) :
    ∃ table', Maps k k' table table' taken (Reached g zones i) := by
  induction zones generalizing k table i taken with
  | nil =>
    cases call
    refine ⟨table, maps_none tables ?_⟩
    rintro p ⟨m, z, entry, _⟩
    cases entry
  | cons z rest ih =>
    rw [mapZones] at call
    split at call
    · next stop =>
      cases call
      refine ⟨table, maps_none tables ?_⟩
      rintro p ⟨m, y, _, reached, _⟩
      omega
    · next going =>
      obtain ⟨⟨k₁, first⟩, zone, call⟩ := Option.bind_eq_some_iff.mp call
      dsimp only at call
      obtain ⟨⟨k₂, second⟩, others, made⟩ := Option.bind_eq_some_iff.mp call
      cases made
      have split : ∀ p, Reached g (z :: rest) i p ↔
          PageRuns.Within z.pagesGroup z.pagesLength p ∨ Reached g rest (i + 1) p := by
        intro p
        constructor
        · rintro ⟨m, y, entry, reached, within⟩
          cases m with
          | zero =>
            cases entry
            exact Or.inl within
          | succ m => exact Or.inr ⟨m, y, entry, by omega, within⟩
        · rintro (within | ⟨m, y, entry, reached, within⟩)
          · exact ⟨0, z, rfl, by omega, within⟩
          · exact ⟨m + 1, y, entry, by omega, within⟩
      obtain ⟨table₁, maps⟩ := map_zone_maps tables (fun j less => known _ ((split _).mpr
        (Or.inl ⟨by omega, by omega⟩))) zone usable.append
      obtain ⟨table₂, next⟩ := ih maps.tables (by omega)
        (fun p reached => known p ((split p).mpr (Or.inr reached))) others
        (usable.rest maps.toGrown)
      exact ⟨table₂, maps.more next split⟩

end step

def extent (z : Zone) : Nat × Nat × Nat × Nat :=
  (z.pagesGroup, z.pagesLength, z.zoneStartAddress, z.zoneEndAddress)

structure Spread (g : Gmd) : Prop where
  bounds : ∀ (i : Nat) (z : Zone), g.zones[i]? = some z →
    z.zoneStartAddress = pageSize * z.pagesGroup ∧
      z.zoneEndAddress = pageSize * (z.pagesGroup + z.pagesLength)
  phys : ∀ (i : Nat) (z : Zone) (p : Nat), g.zones[i]? = some z →
    PageRuns.Within z.pagesGroup z.pagesLength p → (g.pages p).phyAddress = pageSize * p

theorem zone_of_bounds {e : E820} (zone : isZone e) :
    (zoneOf e).zoneStartAddress = pageSize * (zoneOf e).pagesGroup ∧
      (zoneOf e).zoneEndAddress = pageSize * ((zoneOf e).pagesGroup + (zoneOf e).pagesLength) := by
  have longer := zone.2
  unfold zoneOf
  dsimp only
  unfold regionStart regionEnd page2MAlign at *
  unfold pageSize at *
  omega

theorem init_zones_spread (b : Machine) (n : Nat) : Spread (initZones (emptyGmd b) b.table n) := by
  induction n with
  | zero =>
    constructor
    · intro i z entry
      cases entry
    · intro i z p entry
      cases entry
  | succ n ih =>
    rw [initZones]
    by_cases zone : isZone (b.table n)
    · have made := init_zone_made (initZones (emptyGmd b) b.table n) zone
      revert made ih
      generalize initZones (emptyGmd b) b.table n = g
      intro ih made
      constructor
      · intro i z entry
        rw [made.zones] at entry
        rcases (zone_listed i z).mp entry with old | ⟨_, rfl⟩
        · exact ih.bounds i z old
        · exact zone_of_bounds zone
      · intro i z p entry within
        rw [made.zones] at entry
        rw [made.pages]
        split
        · rfl
        · next outside =>
          rcases (zone_listed i z).mp entry with old | ⟨_, rfl⟩
          · exact ih.phys i z p old within
          · exact absurd ((region_within zone p).mp within) outside
    · have same : initZone (initZones (emptyGmd b) b.table n) (b.table n) =
          initZones (emptyGmd b) b.table n := if_neg zone
      rw [same]
      exact ih

theorem init_boot_pages_extents (g : Gmd) (n : Nat) :
    (initBootPages g n).zones.map extent = g.zones.map extent := by
  have linked : ∀ z, extent (countLinked z) = extent z := fun _ => rfl
  have used : ∀ z, extent (countUsed z) = extent z := fun _ => rfl
  induction n with
  | zero => rfl
  | succ n ih =>
    simp only [initBootPages]
    rw [update_zone_map _ _ used, ← ih]
    exact page_init_map _ _ _ linked

theorem init_memory_spread (b : Machine) : Spread (initMemory b) := by
  have spread := init_zones_spread b (lastEntry b.table 31 0 + 1)
  have extents := init_boot_pages_extents (zonesMade b) (bootPages (zonesMade b).endOfStruct)
  have phys := (init_boot_pages_layout (zonesMade b) (bootPages (zonesMade b).endOfStruct)).phys
  have zones : (zonesMade b).zones =
      (initZones (emptyGmd b) b.table (lastEntry b.table 31 0 + 1)).zones := rfl
  rw [← init_memory_eq] at extents phys
  rw [zones] at extents
  have entries : ∀ (i : Nat) (z : Zone), (initMemory b).zones[i]? = some z → ∃ y,
      (initZones (emptyGmd b) b.table (lastEntry b.table 31 0 + 1)).zones[i]? = some y ∧
        extent y = extent z := by
    intro i z entry
    have same := congrArg (fun l : List (Nat × Nat × Nat × Nat) => l[i]?) extents
    simp only [List.getElem?_map, entry, Option.map_some] at same
    obtain ⟨y, listed, equal⟩ := Option.map_eq_some_iff.mp same.symm
    exact ⟨y, listed, equal⟩
  constructor
  · intro i z entry
    obtain ⟨y, listed, equal⟩ := entries i z entry
    simp only [extent, Prod.mk.injEq] at equal
    rw [← equal.1, ← equal.2.1, ← equal.2.2.1, ← equal.2.2.2]
    exact spread.bounds i y listed
  · intro i z p entry within
    obtain ⟨y, listed, equal⟩ := entries i z entry
    simp only [extent, Prod.mk.injEq] at equal
    rw [← equal.1, ← equal.2.1] at within
    rw [phys]
    by_cases first : p = 0
    · subst first
      simp [zonesMade, setPage]
    · simp only [zonesMade, setPage, Function.update_of_ne first]
      exact spread.phys i y p listed within

def InZones (g : Gmd) (a : Nat) : Prop :=
  ∃ (i : Nat) (z : Zone), g.zones[i]? = some z ∧
    (g.zoneUnmapedIndex = 0 ∨ i < g.zoneUnmapedIndex) ∧ z.zoneStartAddress ≤ a ∧
      a < z.zoneEndAddress

theorem in_zones_iff {g : Gmd} (spread : Spread g) (a : Nat) :
    InZones g a ↔ Reached g g.zones 0 (a / pageSize) := by
  have size : 0 < pageSize := by decide
  have number : ∀ (i : Nat) (z : Zone), g.zones[i]? = some z →
      (PageRuns.Within z.pagesGroup z.pagesLength (a / pageSize) ↔
        z.zoneStartAddress ≤ a ∧ a < z.zoneEndAddress) := by
    intro i z entry
    obtain ⟨start, stop⟩ := spread.bounds i z entry
    rw [start, stop, PageRuns.Within, Nat.le_div_iff_mul_le size, Nat.div_lt_iff_lt_mul size,
      Nat.mul_comm, Nat.mul_comm pageSize (_ + _)]
  constructor
  · rintro ⟨i, z, entry, early, span⟩
    exact ⟨i, z, entry, by rw [Nat.zero_add]; exact early, (number i z entry).mpr span⟩
  · rintro ⟨i, z, entry, early, within⟩
    rw [Nat.zero_add] at early
    exact ⟨i, z, entry, early, (number i z entry).mp within⟩

/-- The addresses of the zones are mapped to where PAGE_OFFSET begins, and all others of the kernel
half to where they were. -/
structure DirectMap (g : Gmd) (k k' : Kernel) : Prop where
  direct : ∀ a, InZones g a → translate k'.memory k'.initPgd (physToVirt a) = some a
  rest : ∀ v, Upper v → (∀ a, InZones g a → v ≠ physToVirt a) →
    translate k'.memory k'.initPgd v = translate k.memory k.initPgd v

theorem direct_of_zones {g : Gmd} {k k' : Kernel} {table : List Nat → Option Nat} {taken : List Nat}
    (spread : Spread g) (below : ∀ a, InZones g a → a < userEnd) (tables : Tables k table)
    (call : pagetableInit g k = some (k', taken)) (usable : Usable table taken) :
    DirectMap g k k' := by
  have reached := in_zones_iff spread
  have known : ∀ p, Reached g g.zones 0 p →
      (g.pages p).phyAddress = pageSize * p ∧ pageSize * p < userEnd := by
    intro p here
    obtain ⟨i, z, entry, _, within⟩ := id here
    refine ⟨spread.phys i z p entry within, below _ ((reached _).mpr ?_)⟩
    rw [Nat.mul_div_cancel_left p (by decide)]
    exact here
  obtain ⟨table', maps⟩ := map_zones_maps tables (Or.inr (Nat.zero_le _)) known call usable
  constructor
  · intro a zoned
    have virtual : physToVirt a - pageOffset = a := Nat.add_sub_cancel a pageOffset
    rw [maps.inside _ (virt_upper (below a zoned)), virtual]
    rw [virtual]
    exact (reached a).mp zoned
  · intro v upper others
    refine maps.outside v upper fun here => ?_
    refine others (v - pageOffset) ((reached _).mpr here) ?_
    unfold physToVirt
    exact (Nat.sub_add_cancel upper.1).symm

/-- Whatever the zones of init_memory are, if PAGE_OFFSET + a is a kernel address for all of their
bytes: the page structs of more memory than that take 2.5GB, and the boot maps 64MB. -/
theorem pagetable_init_maps {b : Machine} {k k' : Kernel} {table : List Nat → Option Nat}
    {taken : List Nat} (below : ∀ a, InZones (initMemory b) a → a < userEnd) (tables : Tables k table)
    (call : pagetableInit (initMemory b) k = some (k', taken)) (usable : Usable table taken) :
    DirectMap (initMemory b) k k' :=
  direct_of_zones (init_memory_spread b) below tables call usable

def bootPml4e (i : Nat) : Nat := if i = 0 ∨ i = 256 then 0x102003 else 0
def bootPdpte (i : Nat) : Nat := if i = 0 then 0x103003 else 0

def bootPde (i : Nat) : Nat :=
  if i < 24 then 0x200000 * i + 0x83
  else if i < 32 then 0xe0000000 + 0x200000 * (i - 24) + 0x83
  else 0

structure BootTable (k : Kernel) : Prop where
  root : k.initPgd = 0x101000
  pml4e : ∀ i < 512, k.memory (slot 0x101000 i) = bootPml4e i
  pdpte : ∀ i < 512, k.memory (slot 0x102000 i) = bootPdpte i
  pde : ∀ i < 512, k.memory (slot 0x103000 i) = bootPde i

def bootPaths (path : List Nat) : Option Nat :=
  if path = [] then some 0x101000
  else if path = [256] then some 0x102000
  else if path = [256, 0] then some 0x103000
  else none

theorem boot_paths_cases {path : List Nat} {t : Nat} (listed : bootPaths path = some t) :
    path = [] ∧ t = 0x101000 ∨ path = [256] ∧ t = 0x102000 ∨ path = [256, 0] ∧ t = 0x103000 := by
  unfold bootPaths at listed
  split at listed
  · next here => exact Or.inl ⟨here, (Option.some.inj listed).symm⟩
  · split at listed
    · next here => exact Or.inr (Or.inl ⟨here, (Option.some.inj listed).symm⟩)
    · split at listed
      · next here => exact Or.inr (Or.inr ⟨here, (Option.some.inj listed).symm⟩)
      · cases listed

theorem boot_tables {k : Kernel} (boot : BootTable k) : Tables k bootPaths := by
  refine ⟨⟨?_, ?_, ?_, ?_, ?_, ?_⟩, ?_⟩
  · rw [boot.root]
    rfl
  · intro path t listed
    rcases boot_paths_cases listed with ⟨_, rfl⟩ | ⟨_, rfl⟩ | ⟨_, rfl⟩
    · exact rfl
    · exact rfl
    · exact rfl
  · intro path path' t listed listed'
    rcases boot_paths_cases listed with ⟨rfl, rfl⟩ | ⟨rfl, rfl⟩ | ⟨rfl, rfl⟩
    · rcases boot_paths_cases listed' with ⟨rfl, _⟩ | ⟨_, no⟩ | ⟨_, no⟩
      · rfl
      · exact absurd no (by decide)
      · exact absurd no (by decide)
    · rcases boot_paths_cases listed' with ⟨_, no⟩ | ⟨rfl, _⟩ | ⟨_, no⟩
      · exact absurd no (by decide)
      · rfl
      · exact absurd no (by decide)
    · rcases boot_paths_cases listed' with ⟨_, no⟩ | ⟨_, no⟩ | ⟨rfl, _⟩
      · exact absurd no (by decide)
      · exact absurd no (by decide)
      · rfl
  · intro path i absent
    cases listed : bootPaths (path ++ [i]) with
    | none => rfl
    | some t =>
      rcases boot_paths_cases listed with ⟨here, _⟩ | ⟨here, _⟩ | ⟨here, _⟩
      · simp at here
      · have front : path = [] := (List.append_inj' (show path ++ [i] = [] ++ [256] from here) rfl).1
        rw [front] at absent
        cases absent
      · have front : path = [256] :=
          (List.append_inj' (show path ++ [i] = [256] ++ [0] from here) rfl).1
        rw [front] at absent
        cases absent
  · intro path t listed
    rcases boot_paths_cases listed with ⟨rfl, _⟩ | ⟨rfl, _⟩ | ⟨rfl, _⟩
    · exact ⟨by decide, trivial⟩
    · exact ⟨by decide, by decide, trivial⟩
    · exact ⟨by decide, by decide, by decide, trivial⟩
  · intro path t i listed deep index
    rcases boot_paths_cases listed with ⟨rfl, rfl⟩ | ⟨rfl, rfl⟩ | ⟨rfl, rfl⟩
    · rw [boot.pml4e i index.2]
      have high : 256 ≤ i := index.1
      by_cases here : i = 256
      · rw [here]
        rfl
      · have absent : bootPaths ([] ++ [i]) = none := by simp [bootPaths, here]
        rw [absent, bootPml4e, if_neg (by omega)]
        rfl
    · rw [boot.pdpte i index.2]
      by_cases here : i = 0
      · rw [here]
        rfl
      · have absent : bootPaths ([256] ++ [i]) = none := by simp [bootPaths, here]
        rw [absent, bootPdpte, if_neg here]
        rfl
    · exact absurd deep (by decide)
  · intro path i long small
    cases listed : bootPaths path with
    | none =>
      rw [leaf_absent listed]
      exact Or.inl rfl
    | some t =>
      rw [leaf_listed listed]
      rcases boot_paths_cases listed with ⟨rfl, _⟩ | ⟨rfl, _⟩ | ⟨rfl, rfl⟩
      · cases long
      · cases long
      · rw [boot.pde i small]
        unfold bootPde isPage
        split
        · omega
        · split
          · omega
          · exact Or.inl rfl

/- The blocks that the heap gives are usable: they lie in pages of slabs, and the tables of the boot in
   one that is none. -/

section heap
variable {boot : Nat → Prop} {otherPages : List Nat} {otherBlocks : List (Nat × Nat)}
  {k k' : Kernel} {taken : List Nat}

def blockOf (t : Nat) : Nat × Nat := (physToVirt t, tableBytes)

structure Took (boot : Nat → Prop) (otherPages : List Nat) (otherBlocks : List (Nat × Nat))
    (k k' : Kernel) (taken : List Nat) : Prop where
  sound : Sound boot otherPages otherBlocks k'.account
  blocks : k'.account.blocks = (taken.map blockOf).reverse ++ k.account.blocks

theorem Took.more {k'' : Kernel} {first second : List Nat}
    (took : Took boot otherPages otherBlocks k k' first)
    (next : Took boot otherPages otherBlocks k' k'' second) :
    Took boot otherPages otherBlocks k k'' (first ++ second) := by
  refine ⟨next.sound, ?_⟩
  rw [next.blocks, took.blocks, List.map_append, List.reverse_append, List.append_assoc]

theorem ensure_took {tmp : Nat} (sound : Sound boot otherPages otherBlocks k.account)
    (call : ensureKernelTable k tmp = some (k', taken)) :
    Took boot otherPages otherBlocks k k' taken := by
  unfold ensureKernelTable at call
  split at call
  · obtain ⟨⟨k₁, u⟩, taken, made⟩ := Option.map_eq_some_iff.mp call
    obtain ⟨kept, _, blocks, _⟩ := take_table_spec sound taken
    cases made
    exact ⟨kept, blocks⟩
  · cases call
    exact ⟨sound, rfl⟩

theorem map_kernel_page_took {phy : Nat} (sound : Sound boot otherPages otherBlocks k.account)
    (call : mapKernelPage k phy = some (k', taken)) :
    Took boot otherPages otherBlocks k k' taken := by
  unfold mapKernelPage at call
  dsimp only at call
  obtain ⟨⟨k₁, first⟩, step₁, call⟩ := Option.bind_eq_some_iff.mp call
  dsimp only at call
  obtain ⟨⟨k₂, second⟩, step₂, call⟩ := Option.bind_eq_some_iff.mp call
  cases call
  have took₁ := ensure_took sound step₁
  obtain ⟨kept, blocks⟩ := took₁.more (ensure_took took₁.sound step₂)
  exact ⟨kept, blocks⟩

theorem map_zone_took {g : Gmd} {z : Zone} {n : Nat}
    (sound : Sound boot otherPages otherBlocks k.account)
    (call : mapZone g z k n = some (k', taken)) : Took boot otherPages otherBlocks k k' taken := by
  induction n generalizing k' taken with
  | zero =>
    cases call
    exact ⟨sound, rfl⟩
  | succ n ih =>
    rw [mapZone] at call
    obtain ⟨⟨k₁, first⟩, before, call⟩ := Option.bind_eq_some_iff.mp call
    obtain ⟨⟨k₂, second⟩, page, made⟩ := Option.bind_eq_some_iff.mp call
    cases made
    have took := ih before
    exact took.more (map_kernel_page_took took.sound page)

theorem map_zones_took {g : Gmd} {zones : List Zone} {i : Nat}
    (sound : Sound boot otherPages otherBlocks k.account)
    (call : mapZones g k i zones = some (k', taken)) :
    Took boot otherPages otherBlocks k k' taken := by
  induction zones generalizing k i taken with
  | nil =>
    cases call
    exact ⟨sound, rfl⟩
  | cons z rest ih =>
    rw [mapZones] at call
    split at call
    · cases call
      exact ⟨sound, rfl⟩
    · obtain ⟨⟨k₁, first⟩, zone, call⟩ := Option.bind_eq_some_iff.mp call
      obtain ⟨⟨k₂, second⟩, others, made⟩ := Option.bind_eq_some_iff.mp call
      cases made
      have took := map_zone_took sound zone
      exact took.more (ih took.sound others)

theorem table_apart {pending : List Nat} {extra : List (Nat × Nat)} {h : Heap} {t : Nat}
    (inv : HeapInvariant.Inv boot pending extra h) (member : blockOf t ∈ extra) :
    ¬ boot (t / pageSize) := by
  obtain ⟨i, s, j, block⟩ := inv.occupied _ (List.mem_append_left _ member)
  have ok := inv.slab_ok i block.cache s block.listed
  have last := HeapInvariant.slot_end (i := i) block.slot
  have slots := ok.slots
  have some_bytes : 0 < cacheSize i := Nat.two_pow_pos _
  have place : t = pageSize * (h.slab s).page + cacheSize i * j := by
    refine phys_virt ?_
    have address := block.address
    rw [ok.mapped] at address
    unfold blockOf physToVirt at *
    dsimp only at address
    omega
  have page : t / pageSize = (h.slab s).page := by
    rw [place, Nat.mul_add_div (by decide), Nat.div_eq_of_lt (by omega), Nat.add_zero]
  rw [page]
  exact fun reserved => (inv.reserved _ (Or.inl reserved)).2 i block.cache s block.listed rfl

theorem took_usable {table : List Nat → Option Nat} (took : Took boot otherPages otherBlocks k k' taken)
    (apart : ∀ path t, table path = some t → boot (t / pageSize)) : Usable table taken := by
  have held : ∀ t ∈ taken, blockOf t ∈ k'.account.blocks ++ otherBlocks := by
    intro t member
    rw [took.blocks]
    exact List.mem_append_left _ (List.mem_append_left _
      (List.mem_reverse.mpr (List.mem_map_of_mem member)))
  refine ⟨?_, fun t member => (table_place took.sound.toInv (held t member)).1,
    fun t member path listed => table_apart took.sound.toInv (held t member) (apart path t listed)⟩
  have nodup := took.sound.starts_nodup
  rw [took.blocks, List.map_append] at nodup
  have front := (List.nodup_append.mp nodup).1
  exact ((List.nodup_reverse.mp (List.Nodup.of_map _ front)).of_map _)

end heap

/- The state in which the boot calls pagetable_init: the tables of kernel_header.S, and a heap that
   others have used. -/
structure AtBoot (b : Machine) (k : Kernel) : Prop where
  tables : BootTable k
  sound : Sound (BootPages.Reserved (slabInit (initMemory b))) [] [] k.account

/-- At boot the blocks that kmalloc gives are usable. -/
theorem boot_usable {b : Machine} {k k' : Kernel} {taken : List Nat} (bootable : Bootable b)
    (boot : AtBoot b k) (call : pagetableInit (initMemory b) k = some (k', taken)) :
    Usable bootPaths taken := by
  refine took_usable (map_zones_took boot.sound call) fun path t listed => ?_
  have first := BootPages.first_page_reserved bootable
  rcases boot_paths_cases listed with ⟨_, rfl⟩ | ⟨_, rfl⟩ | ⟨_, rfl⟩
  · exact first
  · exact first
  · exact first

/-- Where init_memory and slab_init go well nothing but a failing kmalloc keeps pagetable_init from
mapping the zones. -/
theorem boot_direct_map {b : Machine} {k k' : Kernel} {taken : List Nat} (bootable : Bootable b)
    (below : ∀ a, InZones (initMemory b) a → a < userEnd) (boot : AtBoot b k)
    (call : pagetableInit (initMemory b) k = some (k', taken)) : DirectMap (initMemory b) k k' :=
  direct_of_zones (init_memory_spread b) below (boot_tables boot.tables) call
    (boot_usable bootable boot call)

def bootWords (x : Nat) : Nat :=
  if x < 0x101000 then 0
  else if x < 0x102000 then bootPml4e ((x - 0x101000) / 8)
  else if x < 0x103000 then bootPdpte ((x - 0x102000) / 8)
  else if x < 0x104000 then bootPde ((x - 0x103000) / 8)
  else 0

theorem boot_words_table (a : SlabCache.Account) : BootTable ⟨a, bootWords, 0x101000⟩ := by
  refine ⟨rfl, fun i small => ?_, fun i small => ?_, fun i small => ?_⟩
  · have place : (slot 0x101000 i - 0x101000) / 8 = i := by
      unfold slot
      omega
    change bootWords (slot 0x101000 i) = _
    rw [bootWords, if_neg (by unfold slot; omega), if_pos (by unfold slot; omega), place]
  · have place : (slot 0x102000 i - 0x102000) / 8 = i := by
      unfold slot
      omega
    change bootWords (slot 0x102000 i) = _
    rw [bootWords, if_neg (by unfold slot; omega), if_neg (by unfold slot; omega),
      if_pos (by unfold slot; omega), place]
  · have place : (slot 0x103000 i - 0x103000) / 8 = i := by
      unfold slot
      omega
    change bootWords (slot 0x103000 i) = _
    rw [bootWords, if_neg (by unfold slot; omega), if_neg (by unfold slot; omega),
      if_neg (by unfold slot; omega), if_pos (by unfold slot; omega), place]

/- RAM below 64MB and 4MB at 1GB, for which the table of the boot has no page directory. -/
def machine1G : Machine where
  table := fun i =>
    if i = 0 then ⟨0, 0x9fc00, 1⟩ else if i = 1 then ⟨0x100000, 0x3f00000, 1⟩
    else if i = 2 then ⟨0x40000000, 0x400000, 1⟩ else ⟨0, 0, 0⟩
  startBrk := 0xffff800000180000
  memory := fun _ => 0

theorem machine_1G_bootable : Bootable machine1G where
  zones := by decide +kernel
  structures := by decide +kernel
  low := by decide +kernel
  direct := by decide +kernel
  counted := by decide +kernel
  slabs := by decide +kernel

def boot1G : Kernel := ⟨⟨slabInit (initMemory machine1G), [], []⟩, bootWords, 0x101000⟩

theorem pagetable_init_maps_1G : ∃ k' t,
    pagetableInit (initMemory machine1G) boot1G = some (k', [t]) ∧
      DirectMap (initMemory machine1G) boot1G k' := by
  have ran : (pagetableInit (initMemory machine1G) boot1G).map (fun r => r.2.length) = some 1 := by
    decide +kernel
  obtain ⟨⟨k', taken⟩, call, one⟩ := Option.map_eq_some_iff.mp ran
  obtain ⟨t, rfl⟩ := List.length_eq_one_iff.mp one
  have ends : ∀ z ∈ (initMemory machine1G).zones, z.zoneEndAddress ≤ userEnd := by decide +kernel
  have boot : AtBoot machine1G boot1G :=
    ⟨boot_words_table _, ⟨(BootPages.boot_ready machine_1G_bootable).inv, trivial⟩⟩
  refine ⟨k', t, call, pagetable_init_maps (fun a zoned => ?_) (boot_tables boot.tables) call
    (boot_usable machine_1G_bootable boot call)⟩
  obtain ⟨i, z, entry, _, _, high⟩ := zoned
  exact Nat.lt_of_lt_of_le high (ends z (List.mem_of_getElem? entry))

end KernelMap

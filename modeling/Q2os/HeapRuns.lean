import Q2os.SlabInit

/- Runs of kmalloc and kfree from slab_init: the blocks of the callers stay apart from each
   other and from the slabs, and the counters of the caches agree with the color maps. -/
namespace HeapRuns
open PageAllocator PageRuns Kmalloc HeapInvariant KmallocSlots KmallocSlabs KmallocSafety SlabInit Run

/-- The heap, and the address and size of every block that its callers hold. -/
structure Usage where
  heap : Heap
  live : List (Nat × Nat)

inductive Event where
  | kmalloc (size : Nat)
  | kfree (address : Nat)

inductive Step : Usage → Event → Usage → Prop where
  | kmalloc {c : Usage} {size : Nat} {h : Heap} {address : Option Nat} (admitted : size ≤ 1048576)
      (call : kmalloc c.heap size = some (h, address)) :
      Step c (.kmalloc size) ⟨h, withBlock c.live size address⟩
  | kfree {c : Usage} {e : Nat × Nat} {h : Heap} {r : Nat} (live : e ∈ c.live)
      (call : kfree c.heap e.1 = some (h, r)) : Step c (.kfree e.1) ⟨h, c.live.erase e⟩

def boot (b : Machine) : Usage := ⟨slabInit (initMemory b), []⟩

def extent (e : Nat × Nat) : Nat × Nat := (e.1, cacheSize (sizeClass e.2))

def InSlabPage (h : Heap) (s : Nat) (r : Nat × Nat) : Prop :=
  (h.slab s).vaddress ≤ r.1 ∧ r.1 + r.2 ≤ (h.slab s).vaddress + pageSize

/-- What the callers rely on. -/
structure Safe (c : Usage) : Prop where
  disjoint : c.live.Pairwise fun e f => Apart (extent e) (extent f)
  long : ∀ e ∈ c.live, e.2 ≤ (extent e).2
  owned : ∀ e ∈ c.live, ∃ s ∈ ring c.heap (sizeClass e.2), InSlabPage c.heap s (extent e) ∧
    ∀ k < 16, ∀ t ∈ ring c.heap k, InSlabPage c.heap t (extent e) → k = sizeClass e.2 ∧ t = s
  apart : ∀ e ∈ c.live, ∀ k < 16, ∀ t ∈ ring c.heap k, Apart (extent e) (t, slabBytes) ∧
    Apart (extent e) ((c.heap.slab t).colorMap, (c.heap.slab t).colorLength)

def countClear (m : Bitmap.Words) (count : Nat) : Nat :=
  (List.range count).countP fun j => Bitmap.bit m j = false

/-- What the allocator itself relies on; pool is the boot slabs. -/
structure Booked (pool : Nat → Nat) (h : Heap) : Prop where
  totals : ∀ i < 16, Totals h i
  counted : ∀ i < 16, ∀ s ∈ ring h i,
    (h.slab s).freeCount + (h.slab s).usingCount = (h.slab s).colorCount ∧
      (h.slab s).freeCount = countClear (h.slab s).colors (h.slab s).colorCount
  pool : ∀ i < 16, pool i ∈ ring h i
  finds : ∀ size ≤ 1048576, h.totalFree (sizeClass size) ≠ 0 →
    ∃ h' a, Kmalloc.kmalloc h size = some (h', some a)
  null : ∀ size ≤ 1048576, ∀ h', Kmalloc.kmalloc h size = some (h', none) →
    (allocPages h.g zoneNormal 1).2 = none

variable {area : Nat → Prop}

theorem step_inv {c d : Usage} {e : Event} (inv : Inv area [] c.live c.heap) (step : Step c e d) :
    Inv area [] d.live d.heap := by
  cases step with
  | kmalloc admitted call => exact (kmalloc_spec _ _ _ _ _ _ _ inv call).1
  | @kfree e h r live call =>
    have first := inv_perm (List.perm_cons_erase live).symm inv
    obtain ⟨h', r', returned, kept⟩ := kfree_spec e.2 _ _ _ _ _ (Nat.le_refl _) first
    rw [returned] at call
    cases call
    exact kept

theorem run_inv {b : Machine} {c : Usage} {es : List Event} (bootable : Bootable b)
    (run : Steps Step (boot b) es c) :
    Inv (BootArea (initMemory b).endOfStruct (structEnd (initMemory b).endOfStruct 16)) []
      c.live c.heap :=
  @invariant_of_step _ _ _ (fun c => Inv _ [] c.live c.heap) (fun _ _ _ => step_inv) _ _ _ run
    (slab_init_inv bootable)

theorem live_extent {c : Usage} {e : Nat × Nat} (inv : Inv area [] c.live c.heap)
    (member : e ∈ c.live) : ∃ s j, Occupied c.heap e (sizeClass e.2) s j := by
  obtain ⟨i, s, j, block⟩ := inv.occupied e (List.mem_append_left _ member)
  exact ⟨s, j, block.sized ▸ block⟩

theorem safe_of_inv {c : Usage} (inv : Inv area [] c.live c.heap) : Safe c := by
  constructor
  · have nodup := inv.distinct
    rw [List.map_append, List.nodup_append] at nodup
    have starts : c.live.Pairwise fun e f => e.1 ≠ f.1 := List.pairwise_map.mp nodup.1
    refine starts.imp_of_mem ?_
    intro e f hasE hasF differ x both
    obtain ⟨s, j, first⟩ := live_extent inv hasE
    obtain ⟨t, l, second⟩ := live_extent inv hasF
    obtain ⟨sameCache, rfl, rfl⟩ := slot_unique inv first.cache second.cache first.listed
      second.listed first.slot second.slot (first.address ▸ both.1) (second.address ▸ both.2)
    exact differ (by rw [first.address, second.address, sameCache])
  · intro e member
    obtain ⟨s, j, block⟩ := live_extent inv member
    exact block.fits
  · intro e member
    obtain ⟨s, j, block⟩ := live_extent inv member
    have ok := inv.slab_ok _ block.cache s block.listed
    have last := slot_end (i := sizeClass e.2) block.slot
    have slots := ok.slots
    have address := block.address
    have positive := cacheSize_pos (sizeClass e.2)
    refine ⟨s, block.listed, ⟨?_, ?_⟩, ?_⟩
    · unfold extent
      omega
    · unfold extent
      dsimp only
      omega
    · intro k hk t listed inside
      have okT := inv.slab_ok k hk t listed
      have low := inside.1
      have high := inside.2
      unfold extent at low high
      dsimp only at low high
      obtain ⟨r, place⟩ : ∃ r, e.1 = (c.heap.slab t).vaddress + r := 
        ⟨e.1 - (c.heap.slab t).vaddress, by omega⟩
      have pageT : virtToPage e.1 = (c.heap.slab t).page := by
        rw [place, okT.mapped]
        exact page_of_address (by omega)
      have pageS := (occupied_page ok block (within_start positive)).1
      exact inv.own k hk _ block.cache t listed s block.listed (pageT.symm.trans pageS)
  · intro e member k hk t listed
    obtain ⟨s, j, block⟩ := live_extent inv member
    exact block_meta_apart inv member block hk listed

/-- The blocks of the callers share no byte with each other or with the allocator's metadata. -/
theorem blocks_safe (b : Machine) (bootable : Bootable b) (es : List Event) (c : Usage)
    (run : Steps Step (boot b) es c) : Safe c :=
  safe_of_inv (run_inv bootable run)

theorem take_slot_pool (h : Heap) (i s : Nat) : (takeSlot h i s).1.pool = h.pool := by
  rcases take_slot_cases h i s with nothing | ⟨j, -, -, -, after⟩
  · rw [nothing]
  · rw [after]
    rfl

theorem create_outside_pool {f : Heap → Nat → Option (Heap × Option Nat)}
    (keep : ∀ h size h' a, f h size = some (h', a) → h'.pool = h.pool)
    {h h' : Heap} {i page s : Nat} (call : createOutside f h i page = some (h', s)) :
    h'.pool = h.pool := by
  unfold createOutside at call
  split at call
  · next h₁ slab first =>
    dsimp only at call
    split at call
    · next h₂ map second =>
      cases call
      exact (keep _ _ _ _ second).trans (keep _ _ _ _ first)
    · cases call
  · cases call

theorem kmalloc_body_pool {f : Heap → Nat → Option (Heap × Option Nat)}
    (keep : ∀ h size h' a, f h size = some (h', a) → h'.pool = h.pool)
    {h h' : Heap} {size : Nat} {a : Option Nat} (call : kmallocBody f h size = some (h', a)) :
    h'.pool = h.pool := by
  have taken : ∀ {g : Heap} {i s : Nat}, some (takeSlot g i s) = some (h', a) → h'.pool = g.pool := by
    intro g i s equal
    have pool := take_slot_pool g i s
    rw [Option.some.inj equal] at pool
    exact pool
  unfold kmallocBody at call
  split at call
  · cases call
    rfl
  · dsimp only at call
    split at call
    · exact taken call
    · unfold kmallocCreate at call
      generalize allocPages h.g zoneNormal 1 = r at call
      obtain ⟨g, page⟩ := r
      cases page with
      | none =>
        cases call
        rfl
      | some page =>
        dsimp only at call
        by_cases inPage : cacheSize (sizeClass size) ≤ 512
        · rw [if_pos inPage] at call
          exact (taken call).trans rfl
        · rw [if_neg inPage] at call
          cases outside : createOutside f { h with g := pageInit g page pgKernel } (sizeClass size)
              page with
          | none => simp [outside] at call
          | some r =>
            obtain ⟨h₁, s⟩ := r
            rw [outside] at call
            have created := create_outside_pool keep outside
            exact (taken call).trans created

theorem kmalloc_pool {h h' : Heap} {size : Nat} {a : Option Nat}
    (call : kmalloc h size = some (h', a)) : h'.pool = h.pool := by
  have none : ∀ h size h' a, kmallocDepth 0 h size = some (h', a) → h'.pool = h.pool := by
    intro h size h' a call
    cases call
  exact kmalloc_body_pool (fun _ _ _ _ => kmalloc_body_pool none) call

theorem kfree_body_pool {f : Heap → Nat → Option (Heap × Nat)}
    (keep : ∀ h address h' r, f h address = some (h', r) → h'.pool = h.pool)
    {h h' : Heap} {address r : Nat} (call : kfreeBody f h address = some (h', r)) :
    h'.pool = h.pool := by
  unfold kfreeBody at call
  split at call
  · cases call
    rfl
  · next i s _ =>
    dsimp only at call
    split at call
    · unfold dropSlab at call
      dsimp only at call
      by_cases inPage : cacheSize i ≤ 512
      · rw [if_pos inPage] at call
        cases call
        rfl
      · rw [if_neg inPage] at call
        split at call
        · cases call
        · next dropped =>
          split at dropped
          · cases dropped
          · next h₁ r₁ first =>
            split at dropped
            · cases dropped
            · next h₂ r₂ second =>
              cases dropped
              cases call
              have unlinked := keep _ _ _ _ first
              have cleaned := keep _ _ _ _ second
              exact cleaned.trans unlinked
    · cases call
      rfl

theorem kfree_pool {h h' : Heap} {address r : Nat} (call : kfree h address = some (h', r)) :
    h'.pool = h.pool := by
  have none : ∀ h address h' r, kfreeDepth 0 h address = some (h', r) → h'.pool = h.pool := by
    intro h address h' r call
    cases call
  exact kfree_body_pool (fun _ _ _ _ => kfree_body_pool none) call

theorem count_clear (m : Bitmap.Words) (n : Nat) : countClear m n + countSet m n = n := by
  induction n with
  | zero => rfl
  | succ n ih =>
    unfold countClear at *
    rw [List.range_succ, List.countP_append, countSet, List.countP_singleton]
    cases Bitmap.bit m n with
    | false =>
      simp only [decide_true, Bool.false_eq_true, if_false, if_true]
      omega
    | true =>
      simp only [Bool.true_eq_false, decide_false, Bool.false_eq_true, if_false, if_true]
      omega

theorem booked_of_inv {extra : List (Nat × Nat)} {h : Heap} (inv : Inv area [] extra h) :
    Booked h.pool h := by
  constructor
  · exact inv.totals
  · intro i hi s hs
    have ok := inv.slab_ok i hi s hs
    have clear := count_clear (h.slab s).colors (h.slab s).colorCount
    have used := ok.using_count
    have balance := ok.free_count
    exact ⟨balance, by omega⟩
  · exact fun i _ => List.mem_cons_self
  · intro size small free
    obtain ⟨inRange, -⟩ := size_class_fits small
    have listed := first_free_listed h (sizeClass size)
    obtain ⟨a, given⟩ := take_slot_some (inv.slab_ok _ inRange _ listed)
      (free_slab_found inv inRange free)
    refine ⟨(takeSlot h (sizeClass size)
      (firstFree h (h.pool (sizeClass size)) (ring h (sizeClass size)))).1, a, ?_⟩
    rw [← given]
    unfold Kmalloc.kmalloc kmallocDepth kmallocBody
    rw [if_neg (Nat.not_lt.mpr small)]
    dsimp only
    rw [if_pos free]
  · intro size small h' call
    rcases (kmalloc_spec _ _ _ _ _ _ _ inv call).2 rfl with long | none
    · omega
    · exact none

theorem step_pool {c d : Usage} {e : Event} {pool : Nat → Nat} (same : c.heap.pool = pool)
    (step : Step c e d) : d.heap.pool = pool := by
  cases step with
  | kmalloc _ call => exact (kmalloc_pool call).trans same
  | kfree _ call => exact (kfree_pool call).trans same

/-- The counters of every cache are the sums over its slabs and agree with their color maps, and
a cache with free slots always has one to give. -/
theorem counters_agree (b : Machine) (bootable : Bootable b) (es : List Event) (c : Usage)
    (run : Steps Step (boot b) es c) : Booked (boot b).heap.pool c.heap := by
  have pool := @invariant_of_step _ _ _ (fun c => c.heap.pool = (boot b).heap.pool)
    (fun _ _ _ => step_pool) _ _ _ run rfl
  rw [← pool]
  exact booked_of_inv (run_inv bootable run)

/-- Every call of kfree that the callers may make returns. -/
theorem kfree_returns (b : Machine) (bootable : Bootable b) (es : List Event) (c : Usage)
    (run : Steps Step (boot b) es c) (e : Nat × Nat) (live : e ∈ c.live) :
    ∃ h r, kfree c.heap e.1 = some (h, r) := by
  have first := inv_perm (List.perm_cons_erase live).symm (run_inv bootable run)
  obtain ⟨h, r, returned, -⟩ := kfree_spec e.2 _ _ _ _ _ (Nat.le_refl _) first
  exact ⟨h, r, returned⟩

theorem machine128_bootable : Bootable machine128 where
  toCovered := machine128_covered
  low := by decide +kernel
  direct := by decide +kernel
  counted := by decide +kernel
  slabs := by decide +kernel

/- The steps as a function. -/
def next (c : Usage) : Event → Option Usage
  | .kmalloc size =>
    if size ≤ 1048576 then
      (kmalloc c.heap size).map fun r => ⟨r.1, withBlock c.live size r.2⟩
    else none
  | .kfree address =>
    (c.live.find? fun e => e.1 = address).bind fun e =>
      (kfree c.heap e.1).map fun r => ⟨r.1, c.live.erase e⟩

theorem next_step (c : Usage) (e : Event) (d : Usage) (taken : next c e = some d) : Step c e d := by
  cases e with
  | kmalloc size =>
    unfold next at taken
    dsimp only at taken
    split at taken
    · next admitted =>
      obtain ⟨r, call, rfl⟩ := Option.map_eq_some_iff.mp taken
      exact .kmalloc admitted call
    · cases taken
  | kfree address =>
    obtain ⟨e, found, taken⟩ := Option.bind_eq_some_iff.mp taken
    obtain ⟨r, call, rfl⟩ := Option.map_eq_some_iff.mp taken
    have here : e.1 = address := by simpa using List.find?_some found
    rw [← here]
    exact .kfree (List.mem_of_find?_eq_some found) call

/- Blocks of three sizes, the first of them freed and taken again. -/
def churn : List (Usage → Option Event) :=
  [fun _ => some (.kmalloc 524288), fun _ => some (.kmalloc 1048576),
    fun _ => some (.kmalloc 262144), fun c => c.live.getLast?.map fun e => .kfree e.1,
    fun _ => some (.kmalloc 524288)]

theorem churned : ∃ es c, Steps Step (boot machine128) es c ∧ es.length = 5 ∧
    c.live.map Prod.snd = [524288, 262144, 1048576] := by
  have ran : ((pick next (boot machine128) churn).map fun r => (r.1.length, r.2.live.map Prod.snd)) =
      some (5, [524288, 262144, 1048576]) := by decide +kernel
  obtain ⟨r, picked, seen⟩ := Option.map_eq_some_iff.mp ran
  simp only [Prod.mk.injEq] at seen
  exact ⟨r.1, r.2, @steps_of_pick _ _ Step next _ _ _ churn next_step picked, seen⟩

theorem blocks_safe_churned : ∃ c : Usage, Safe c ∧
    c.live.map Prod.snd = [524288, 262144, 1048576] := by
  obtain ⟨es, c, run, _, live⟩ := churned
  exact ⟨c, blocks_safe machine128 machine128_bootable es c run, live⟩

theorem counters_agree_churned : ∃ c : Usage, Booked (boot machine128).heap.pool c.heap ∧
    c.live.map Prod.snd = [524288, 262144, 1048576] := by
  obtain ⟨es, c, run, _, live⟩ := churned
  exact ⟨c, counters_agree machine128 machine128_bootable es c run, live⟩

end HeapRuns

import Q2os.HeapRuns
import Q2os.SlabCacheInvariant

/- Runs of slab_malloc and slab_free on a cache that slab_create made in any run of the heap,
   between calls of kmalloc and kfree by the rest of the kernel. -/
namespace SlabCache
open Bitmap PageAllocator PageRuns Kmalloc HeapInvariant KmallocSlots KmallocSlabs KmallocSafety
  SlabInit PageRules Run

variable {boot : Nat → Prop} {Q : Gmd → Prop} {otherPages : List Nat}
  {otherBlocks : List (Nat × Nat)} {a a' : Account} {c c' : Cache} {objects : List Nat} {x : Nat}

def withObject (objects : List Nat) : Option Nat → List Nat
  | none => objects
  | some x => x :: objects

structure SameCache (c c' : Cache) : Prop where
  address : c'.address = c.address
  size : c'.size = c.size
  cachePool : c'.cachePool = c.cachePool

theorem slab_malloc_ok {r : Option Nat} (rule : PageRule boot otherPages Q)
    (spares : c.totalFree = 0 → MapRefused a (pageSize / c.size) → Spares Q)
    (balanced : Balanced boot Q otherPages otherBlocks a)
    (ok : CacheOk a c objects) (call : slabMalloc a c = some (a', c', r)) :
    Balanced boot Q otherPages otherBlocks a' ∧ CacheOk a' c' (withObject objects r) ∧
      SameCache c c' := by
  unfold slabMalloc at call
  by_cases full : c.totalFree = 0
  · rw [if_pos full] at call
    obtain ⟨⟨a₁, made⟩, first, call⟩ := Option.bind_eq_some_iff.mp call
    obtain ⟨balanced₁, undone, done⟩ := make_slab_spec rule (spares full) balanced first
    cases made with
    | none =>
      cases call
      obtain ⟨blocks, pages⟩ := undone rfl
      have owned : Owned a' c (ring c) := ⟨blocks ▸ ok.owned.blocks, pages ▸ ok.owned.pages⟩
      exact ⟨balanced₁, { ok with owned := owned }, rfl, rfl, rfl⟩
    | some made =>
      obtain ⟨s, v⟩ := made
      have fresh := done s v rfl
      have linked := link_ok ok balanced₁ fresh
      have listed : s ∈ ring (linkSlab c s v) := List.mem_cons_of_mem _ List.mem_cons_self
      have new : (linkSlab c s v).slab s = v := by
        change Function.update c.slab s v s = v
        rw [Function.update_self]
      dsimp only at call
      cases found : (List.range v.colorCount).find? fun j => bit v.colors j = false with
      | none =>
        -- a fresh slab has no color, as all of them are clear
        have zero : v.colorCount = 0 := by
          refine Nat.eq_zero_of_not_pos fun positive => ?_
          have taken := List.find?_eq_none.mp found 0 (List.mem_range.mpr positive)
          rw [fresh.colors] at taken
          exact taken (decide_eq_true (by simp [bit]))
        rw [found] at call
        obtain ⟨a₂, released, call⟩ := Option.bind_eq_some_iff.mp call
        have front : (ring (linkSlab c s v)).Perm (s :: ring (unlinkSlab (linkSlab c s v) s)) :=
          ((List.perm_cons_erase List.mem_cons_self).cons _).trans (List.Perm.swap _ _ _)
        obtain ⟨a₂', released', balanced₂, owned⟩ :=
          release_owned rule balanced₁ (owned_perm front linked.owned)
        rw [new, released] at released'
        cases released'
        have unused : ((linkSlab c s v).slab s).usingCount = 0 := by
          rw [new, fresh.using_count]
        have unlinked := unlink_ok linked List.mem_cons_self unused owned
        have same : unlinkSlab (linkSlab c s v) s =
            { linkSlab c s v with others := (linkSlab c s v).others.erase s } := by
          unfold unlinkSlab
          rw [new, zero]
          rfl
        rw [same] at unlinked
        cases call
        exact ⟨balanced₂, unlinked, rfl, rfl, rfl⟩
      | some j =>
        rw [found] at call
        cases call
        have inside : j < v.colorCount := List.mem_range.mp (List.mem_of_find?_eq_some found)
        have accepted := List.find?_some found
        have clear : bit v.colors j = false := of_decide_eq_true accepted
        rw [← new] at inside clear
        have kept := take_object_ok balanced₁ linked listed inside clear
        exact ⟨balanced₁, kept, rfl, rfl, rfl⟩
  · rw [if_neg full] at call
    split at call
    · cases call
      exact ⟨balanced, ok, rfl, rfl, rfl⟩
    · next s found =>
      split at call
      · next j color =>
        cases call
        obtain ⟨inside, clear⟩ := search_color_some color
        have kept := take_object_ok balanced ok (List.mem_of_find?_eq_some found) inside clear
        exact ⟨balanced, kept, rfl, rfl, rfl⟩
      · split at call
        · cases call
          exact ⟨balanced, ok, rfl, rfl, rfl⟩
        · cases call

theorem slab_malloc_some (ok : CacheOk a c objects) (free : c.totalFree ≠ 0) :
    ∃ c' x, slabMalloc a c = some (a, c', some x) := by
  unfold slabMalloc
  rw [if_neg free]
  cases found : (ring c).find? fun s => (c.slab s).freeCount ≠ 0 with
  | none =>
    refine absurd ?_ free
    rw [ok.free]
    refine sum_zero fun s member => ?_
    have never := List.find?_eq_none.mp found s member
    simpa using never
  | some s =>
    have accepted := List.find?_some found
    have some_free : (c.slab s).freeCount ≠ 0 := of_decide_eq_true accepted
    have slab := ok.slabs s (List.mem_of_find?_eq_some found)
    dsimp only
    cases color : searchColor (c.slab s).colors (c.slab s).colorCount (c.slab s).colorCount 0 with
    | some j => exact ⟨_, _, rfl⟩
    | none =>
      have all := search_color_none (by omega) (Or.inl rfl) color
      have full := count_set_full fun k small => all k (Nat.zero_le k) small
      have balance := slab.free
      omega

theorem find_object (balanced : Balanced boot Q otherPages otherBlocks a) (ok : CacheOk a c objects)
    {s j : Nat} (object : Object c x s j) :
    ((ring c).find? fun s => holds (c.slab s) x) = some s := by
  cases found : (ring c).find? fun s => holds (c.slab s) x with
  | none =>
    have never := List.find?_eq_none.mp found s object.listed
    exact absurd (object_held ok object) never
  | some t =>
    have held := List.find?_some found
    rw [held_unique balanced ok (List.mem_of_find?_eq_some found) object.listed held
      (object_held ok object)]

theorem slab_free_ok (rule : PageRule boot otherPages Q)
    (balanced : Balanced boot Q otherPages otherBlocks a) (ok : CacheOk a c objects)
    (member : x ∈ objects) :
    ∃ a' c', slabFree a c x = some (a', c', 1) ∧ Balanced boot Q otherPages otherBlocks a' ∧
      CacheOk a' c' (objects.erase x) ∧ SameCache c c' := by
  obtain ⟨s, j, object⟩ := ok.object x member
  have given := give_object_ok balanced ok member object
  unfold slabFree
  rw [find_object balanced ok object]
  dsimp only
  by_cases drop : ((giveObject c s x).slab s).usingCount = 0 ∧
      (giveObject c s x).totalFree ≥ ((giveObject c s x).slab s).colorCount * 3 / 2
  · rw [if_pos drop]
    have later : s ∈ (giveObject c s x).others := by
      rcases List.mem_cons.mp object.listed with first | later
      · have fits := object_fits ok object
        have used := pool_used given fits
        have pool : (giveObject c s x).cachePool = s := first.symm
        rw [pool] at used
        exact absurd drop.1 used
      · exact later
    have front : (ring (giveObject c s x)).Perm (s :: ring (unlinkSlab (giveObject c s x) s)) :=
      ((List.perm_cons_erase later).cons _).trans (List.Perm.swap _ _ _)
    obtain ⟨a', released, balanced', owned⟩ :=
      release_owned rule balanced (owned_perm front given.owned)
    have unlinked := unlink_ok given later drop.1 owned
    rw [released]
    exact ⟨a', _, rfl, balanced', unlinked, rfl, rfl, rfl⟩
  · rw [if_neg drop]
    exact ⟨a, _, rfl, balanced, given, rfl, rfl, rfl⟩

theorem destroy_slabs_ok (rule : PageRule boot otherPages Q) : ∀ (slabs : List Nat) (a : Account),
    Balanced boot Q otherPages otherBlocks a → Owned a c slabs →
    ∃ a', destroySlabs c slabs a = some a' ∧ Balanced boot Q otherPages otherBlocks a' ∧
      Owned a' c [] := by
  intro slabs
  induction slabs with
  | nil => exact fun a balanced owned => ⟨a, rfl, balanced, owned⟩
  | cons s rest ih =>
    intro a balanced owned
    obtain ⟨a₁, released, balanced₁, owned₁⟩ := release_owned rule balanced owned
    obtain ⟨a', rest', balanced', owned'⟩ := ih a₁ balanced₁ owned₁
    refine ⟨a', ?_, balanced', owned'⟩
    rw [destroySlabs, released]
    exact rest'

theorem slab_destroy_ok (rule : PageRule boot otherPages Q)
    (balanced : Balanced boot Q otherPages otherBlocks a)
    (ok : CacheOk a c []) :
    ∃ a', slabDestroy a c = some (a', 1) ∧ Balanced boot Q otherPages otherBlocks a' ∧
      a'.blocks = [] ∧ a'.pages = [] := by
  obtain ⟨a₁, destroyed, balanced₁, owned⟩ := destroy_slabs_ok rule (ring c) a balanced ok.owned
  have blocks : a₁.blocks = [(c.address, slabCacheBytes)] := List.perm_singleton.mp owned.blocks
  have pages : a₁.pages = [] := List.perm_nil.mp owned.pages
  have held : (c.address, slabCacheBytes) ∈ a₁.blocks := by
    rw [blocks]
    exact List.mem_cons_self
  obtain ⟨a', given, balanced', pages', blocks'⟩ := give_block_spec rule.drop balanced₁ held
  refine ⟨a', ?_, balanced', ?_, pages'.trans pages⟩
  · have unused : ¬ c.totalUsing ≠ 0 := fun used => used ok.used
    unfold slabDestroy
    rw [if_neg unused, destroyed]
    change ((giveBlock a₁ c.address).bind fun a => some (a, 1)) = _
    rw [given]
    rfl
  · rw [blocks', blocks]
    exact List.erase_cons_head ..

/-- A cache, its live objects, and the blocks that the rest of the kernel holds. -/
structure Kernel where
  account : Account
  cache : Cache
  objects : List Nat
  rest : List (Nat × Nat)

inductive Call where
  | slabMalloc
  | slabFree (address : Nat)
  | kmalloc (size : Nat)
  | kfree (address : Nat)

inductive CallStep : Kernel → Call → Kernel → Prop where
  | slabMalloc {k : Kernel} {a : Account} {c : Cache} {r : Option Nat}
      (call : slabMalloc k.account k.cache = some (a, c, r)) :
      CallStep k .slabMalloc ⟨a, c, withObject k.objects r, k.rest⟩
  | slabFree {k : Kernel} {a : Account} {c : Cache} {x r : Nat} (live : x ∈ k.objects)
      (call : slabFree k.account k.cache x = some (a, c, r)) :
      CallStep k (.slabFree x) ⟨a, c, k.objects.erase x, k.rest⟩
  | kmalloc {k : Kernel} {size : Nat} {h : Heap} {address : Option Nat} (admitted : size ≤ 1048576)
      (call : kmalloc k.account.heap size = some (h, address)) :
      CallStep k (.kmalloc size)
        ⟨{ k.account with heap := h }, k.cache, k.objects, withBlock k.rest size address⟩
  | kfree {k : Kernel} {e : Nat × Nat} {h : Heap} {r : Nat} (live : e ∈ k.rest)
      (call : kfree k.account.heap e.1 = some (h, r)) :
      CallStep k (.kfree e.1) ⟨{ k.account with heap := h }, k.cache, k.objects, k.rest.erase e⟩

/-- slab_create(size) has just returned the cache of k, in some state of the heap. -/
structure Created (b : Machine) (size : Nat) (k : Kernel) : Prop where
  before : ∃ es u, Steps HeapRuns.Step (HeapRuns.boot b) es u ∧ u.live = k.rest ∧
    slabCreate ⟨u.heap, [], []⟩ size = some (k.account, some k.cache)
  objects : k.objects = []

structure KernelOk (boot : Nat → Prop) (first : Cache) (k : Kernel) : Prop where
  balanced : Balanced boot (fun _ => True) [] k.rest k.account
  cache : CacheOk k.account k.cache k.objects
  same : SameCache first k.cache

theorem same_trans {c c' c'' : Cache} (first : SameCache c c') (second : SameCache c' c'') :
    SameCache c c'' :=
  ⟨second.address.trans first.address, second.size.trans first.size,
    second.cachePool.trans first.cachePool⟩

theorem call_step_ok {first : Cache} {k k' : Kernel} {e : Call} (ok : KernelOk boot first k)
    (step : CallStep k e k') : KernelOk boot first k' := by
  cases step with
  | slabMalloc call =>
    obtain ⟨balanced, cache, same⟩ := slab_malloc_ok (no_rule boot []) (fun _ _ _ _ => id) ok.balanced ok.cache call
    exact ⟨balanced, cache, same_trans ok.same same⟩
  | slabFree live call =>
    obtain ⟨a, c, freed, balanced, cache, same⟩ := slab_free_ok (no_rule boot []) ok.balanced ok.cache live
    rw [freed] at call
    cases call
    exact ⟨balanced, cache, same_trans ok.same same⟩
  | @kmalloc size h address admitted call =>
    have kept := (kmalloc_spec _ _ _ _ _ _ _ ok.balanced.toInv call).1
    have cache := ok.cache
    refine ⟨?_, { cache with owned := ⟨cache.owned.blocks, cache.owned.pages⟩ }, ok.same⟩
    cases address with
    | none => exact ⟨kept, trivial⟩
    | some address => exact ⟨inv_perm List.perm_middle kept, trivial⟩
  | @kfree e h r live call =>
    have cache := ok.cache
    have front : (e :: (k.account.blocks ++ k.rest.erase e)).Perm (k.account.blocks ++ k.rest) :=
      (List.perm_middle.symm).trans ((List.perm_cons_erase live).symm.append_left _)
    obtain ⟨h', r', returned, kept⟩ :=
      kfree_spec e.2 _ _ _ _ _ (Nat.le_refl _) (inv_perm front ok.balanced.toInv)
    rw [returned] at call
    cases call
    exact ⟨⟨kept, trivial⟩, { cache with owned := ⟨cache.owned.blocks, cache.owned.pages⟩ }, ok.same⟩

def bootArea (b : Machine) : Nat → Prop :=
  BootArea (initMemory b).endOfStruct (structEnd (initMemory b).endOfStruct 16)

theorem created_ok {b : Machine} {size : Nat} {k : Kernel} (bootable : Bootable b)
    (positive : 0 < size) (created : Created b size k) :
    KernelOk (bootArea b) k.cache k ∧ k.cache.size = sizeofLongAlign size := by
  obtain ⟨⟨es, u, run, rest, call⟩, objects⟩ := created
  have balanced : Balanced (bootArea b) (fun _ => True) [] k.rest ⟨u.heap, [], []⟩ :=
    ⟨rest ▸ HeapRuns.run_inv bootable run, trivial⟩
  obtain ⟨kept, -, made⟩ :=
    create_ok (no_rule _ []) (fun _ _ _ => id) positive balanced rfl rfl call
  obtain ⟨cache, sized⟩ := made k.cache rfl
  exact ⟨⟨kept, objects ▸ cache, rfl, rfl, rfl⟩, sized⟩

theorem run_ok {b : Machine} {size : Nat} {k₀ k : Kernel} {es : List Call} (bootable : Bootable b)
    (positive : 0 < size) (created : Created b size k₀) (run : Steps CallStep k₀ es k) :
    KernelOk (bootArea b) k₀.cache k :=
  @invariant_of_step _ _ _ (KernelOk (bootArea b) k₀.cache)
    (fun _ _ _ => call_step_ok) _ _ _ run (created_ok bootable positive created).1

theorem created_size {b : Machine} {size : Nat} {k₀ k : Kernel} (bootable : Bootable b)
    (positive : 0 < size) (fits : size ≤ pageSize) (created : Created b size k₀)
    (ok : KernelOk (bootArea b) k₀.cache k) : k.cache.size ≤ pageSize := by
  rw [ok.same.size, (created_ok bootable positive created).2]
  unfold sizeofLongAlign
  unfold pageSize at *
  omega

/- The counters of a cache. -/

/-- using_count of every slab is the number of its live objects, and the other counters agree
with each other and with the color maps. -/
structure Counted (c : Cache) (objects : List Nat) : Prop where
  using_count : ∀ s ∈ ring c, (c.slab s).usingCount = liveIn objects (c.slab s)
  balance : ∀ s ∈ ring c, (c.slab s).freeCount + (c.slab s).usingCount = (c.slab s).colorCount
  total_using : c.totalUsing = ((ring c).map fun s => (c.slab s).usingCount).sum
  total_free : c.totalFree = ((ring c).map fun s => (c.slab s).freeCount).sum
  clear : ∀ s ∈ ring c,
    (c.slab s).freeCount = HeapRuns.countClear (c.slab s).colors (c.slab s).colorCount

/-- The counters as they are: using_count of the first slab is too large by the number of its
colors. -/
structure CountedBeside (c : Cache) (objects : List Nat) : Prop where
  first : (c.slab c.cachePool).usingCount =
    liveIn objects (c.slab c.cachePool) + (c.slab c.cachePool).colorCount
  using_count : ∀ s ∈ c.others, (c.slab s).usingCount = liveIn objects (c.slab s)
  balance : ∀ s ∈ ring c,
    (c.slab s).freeCount + liveIn objects (c.slab s) = (c.slab s).colorCount
  total_using : c.totalUsing = ((ring c).map fun s => liveIn objects (c.slab s)).sum
  total_free : c.totalFree = ((ring c).map fun s => (c.slab s).freeCount).sum
  clear : ∀ s ∈ ring c,
    (c.slab s).freeCount = HeapRuns.countClear (c.slab s).colors (c.slab s).colorCount

theorem sum_one_more {f g : Nat → Nat} {s : Nat} {l : List Nat} (nodup : l.Nodup) (member : s ∈ l)
    (more : g s = f s + 1) (same : ∀ t ∈ l, t ≠ s → g t = f t) :
    (l.map g).sum = (l.map f).sum + 1 := by
  have change := sum_change (f := f) (g := fun t => if t = s then g s else f t) nodup member
    fun t other => if_neg other
  have equal : (l.map fun t => if t = s then g s else f t) = l.map g := by
    refine List.map_congr_left fun t inside => ?_
    by_cases here : t = s
    · rw [if_pos here, here]
    · rw [if_neg here, same t inside here]
  rw [equal, if_pos rfl] at change
  omega

theorem sum_live {slabs : List Nat} (nodup : slabs.Nodup)
    (one : ∀ x ∈ objects, ∃ s ∈ slabs, holds (c.slab s) x = true ∧
      ∀ t ∈ slabs, t ≠ s → ¬ holds (c.slab t) x = true) :
    (slabs.map fun s => liveIn objects (c.slab s)).sum = objects.length := by
  induction objects with
  | nil =>
    have zero : (slabs.map fun s => liveIn [] (c.slab s)) = slabs.map fun _ => 0 := rfl
    rw [zero, List.map_const', List.sum_replicate_nat]
    exact Nat.mul_zero _
  | cons x rest ih =>
    obtain ⟨s, member, here, away⟩ := one x List.mem_cons_self
    rw [List.length_cons, ← ih fun y later => one y (List.mem_cons_of_mem _ later)]
    exact sum_one_more nodup member (List.countP_cons_of_pos here)
      fun t inside other => List.countP_cons_of_neg (away t inside other)

theorem counted_beside (balanced : Balanced boot Q otherPages otherBlocks a)
    (ok : CacheOk a c objects) : CountedBeside c objects := by
  have pool : c.cachePool ∈ ring c := List.mem_cons_self
  refine ⟨?_, ?_, ?_, ?_, ok.free, ?_⟩
  · have slab := ok.slabs _ pool
    rw [slab.used, slab.live, surplus, if_pos rfl, slab.count]
  · intro s later
    have slab := ok.slabs s (List.mem_cons_of_mem _ later)
    have behind : s ≠ c.cachePool := by
      intro same
      exact (List.nodup_cons.mp ok.nodup).1 (same ▸ later)
    rw [slab.used, slab.live, surplus, if_neg behind, Nat.add_zero]
  · intro s listed
    have slab := ok.slabs s listed
    rw [← slab.live]
    exact slab.free
  · refine ok.used.trans (sum_live ok.nodup fun x member => ?_).symm
    obtain ⟨s, j, object⟩ := ok.object x member
    have here := object_held ok object
    exact ⟨s, object.listed, here, fun t listed other there =>
      other (held_unique balanced ok listed object.listed there here)⟩
  · intro s listed
    have free := (ok.slabs s listed).free
    have clear := HeapRuns.count_clear (c.slab s).colors (c.slab s).colorCount
    omega

/- A cache for objects of 2MB at boot, where no allocation has to make a slab. -/

/- A kmalloc that needs no new slab. -/
structure TakesSlot (h h' : Heap) (i : Nat) : Prop where
  g : h'.g = h.g
  here : h'.totalFree i = h.totalFree i - 1
  away : ∀ k, k ≠ i → h'.totalFree k = h.totalFree k

theorem take_slot_takes {h : Heap} {i s : Nat} (ok : SlabOk h i s)
    (free : (h.slab s).freeCount ≠ 0) :
    ∃ h' address, takeSlot h i s = (h', some address) ∧ TakesSlot h h' i := by
  obtain ⟨address, given⟩ := take_slot_some ok free
  rcases take_slot_cases h i s with nothing | ⟨j, -, -, -, after⟩
  · rw [nothing] at given
    cases given
  · generalize takeSlot h i s = r at *
    obtain ⟨h', found⟩ := r
    cases given
    have g := congrArg Heap.g after
    have here := congrArg (fun h => h.totalFree i) after
    refine ⟨h', address, rfl, g, ?_, fun k other => ?_⟩
    · exact here.trans (Function.update_self ..)
    · have away := congrArg (fun h => h.totalFree k) after
      exact away.trans (Function.update_of_ne other ..)

theorem kmalloc_slot {pending : List Nat} {extra : List (Nat × Nat)} {h : Heap} {size : Nat}
    (inv : Inv boot pending extra h) (small : size ≤ 1048576)
    (free : h.totalFree (sizeClass size) ≠ 0) :
    ∃ h' address, kmalloc h size = some (h', some address) ∧ TakesSlot h h' (sizeClass size) := by
  obtain ⟨inRange, -⟩ := size_class_fits small
  have listed := first_free_listed h (sizeClass size)
  obtain ⟨h', address, taken, slot⟩ := take_slot_takes (inv.slab_ok _ inRange _ listed)
    (free_slab_found inv inRange free)
  refine ⟨h', address, ?_, slot⟩
  unfold kmalloc kmallocDepth kmallocBody
  rw [if_neg (Nat.not_lt.mpr small)]
  dsimp only
  rw [if_pos free, taken]

theorem take_block_some {size : Nat} (balanced : Balanced boot Q otherPages otherBlocks a)
    (small : size ≤ 1048576) (free : a.heap.totalFree (sizeClass size) ≠ 0) :
    ∃ a' address, takeBlock a size = some (a', some address) ∧
      TakesSlot a.heap a'.heap (sizeClass size) := by
  obtain ⟨h, address, call, slot⟩ := kmalloc_slot balanced.toInv small free
  refine ⟨{ a with heap := h, blocks := (address, size) :: a.blocks }, address, ?_, slot⟩
  unfold takeBlock
  rw [call]
  rfl

theorem cache_of_2mb : ∃ k, Created machine128 pageSize k ∧ k.rest = [] := by
  have free : ∀ i < 3, (slabInit (initMemory machine128)).totalFree i ≠ 0 := by decide +kernel
  have page : (allocPages (slabInit (initMemory machine128)).g zoneNormal 1).2.isSome = true := by
    decide +kernel
  have balanced : Balanced (bootArea machine128) (fun _ => True) [] []
      ⟨slabInit (initMemory machine128), [], []⟩ :=
    ⟨slab_init_inv HeapRuns.machine128_bootable, trivial⟩
  have rule := no_rule (bootArea machine128) []
  have class1 : sizeClass slabCacheBytes = 1 := by decide
  have class2 : sizeClass slabBytes = 2 := by decide
  have class0 : sizeClass (colorLengthOf 1) = 0 := by decide
  obtain ⟨a₁, address, first, slot₁⟩ := take_block_some balanced (by decide)
    (class1 ▸ free 1 (by decide))
  have balanced₁ := (take_block_spec rule balanced first).1
  have left₁ : a₁.heap.totalFree 2 ≠ 0 := by
    rw [slot₁.away 2 (by rw [class1]; decide)]
    exact free 2 (by decide)
  obtain ⟨a₂, slab, second, slot₂⟩ := take_block_some balanced₁ (by decide) (class2 ▸ left₁)
  have balanced₂ := (take_block_spec rule balanced₁ second).1
  have requested : ∃ a₃ page, takePage a₂ = some (a₃, page) ∧
      a₃.heap.totalFree = a₂.heap.totalFree := by
    unfold takePage
    rw [slot₂.g, slot₁.g]
    generalize allocPages (slabInit (initMemory machine128)).g zoneNormal 1 = r at page
    obtain ⟨g, found⟩ := r
    cases found with
    | none => cases page
    | some p => exact ⟨_, p, rfl, rfl⟩
  obtain ⟨a₃, page, third, same₃⟩ := requested
  have balanced₃ := (take_page_spec rule balanced₂ third).1
  have left₃ : a₃.heap.totalFree 0 ≠ 0 := by
    rw [same₃, slot₂.away 0 (by rw [class2]; decide), slot₁.away 0 (by rw [class1]; decide)]
    exact free 0 (by decide)
  obtain ⟨a₄, map, fourth, -⟩ := take_block_some balanced₃ (by decide) (class0 ▸ left₃)
  have aligned : sizeofLongAlign pageSize = pageSize := by decide
  have one : pageSize / pageSize = 1 := by decide
  let v : Slab := ⟨page, 1, 1, physToVirt (a₃.heap.g.pages page).phyAddress, colorLengthOf 1, 1, map,
    fun _ => 0⟩
  have made : makeSlab a₁ 1 1 = some (a₄, some (slab, v)) := by
    unfold makeSlab
    rw [second]
    dsimp only [Option.bind_eq_bind, Option.bind_some]
    rw [third]
    dsimp only
    rw [fourth]
    rfl
  refine ⟨⟨a₄, ⟨address, pageSize, 0, 1, slab, [], fun _ => v⟩, [], []⟩,
    ⟨⟨[], HeapRuns.boot machine128, .nil _, rfl, ?_⟩, rfl⟩, rfl⟩
  unfold slabCreate
  change (takeBlock ⟨slabInit (initMemory machine128), [], []⟩ slabCacheBytes).bind _ = _
  rw [first]
  dsimp only [Option.bind_some]
  rw [aligned, one, made]
  rfl

/-- In no state of any run do the counters of a cache agree: those of its first slab are wrong
from slab_create on, and nothing else is. -/
theorem counters_off (b : Machine) (bootable : Bootable b) (size : Nat) (positive : 0 < size)
    (fits : size ≤ pageSize) (k₀ k : Kernel) (es : List Call) (created : Created b size k₀)
    (run : Steps CallStep k₀ es k) :
    ¬ Counted k.cache k.objects ∧ CountedBeside k.cache k.objects := by
  have ok := run_ok bootable positive created run
  have beside := counted_beside ok.balanced ok.cache
  refine ⟨fun counted => ?_, beside⟩
  have pool : k.cache.cachePool ∈ ring k.cache := List.mem_cons_self
  have claimed := counted.using_count _ pool
  have count := (ok.cache.slabs _ pool).count
  have sized := created_size bootable positive fits created ok
  have some_colors : 0 < pageSize / k.cache.size := Nat.div_pos sized ok.cache.positive
  have first := beside.first
  omega

def nextCall (k : Kernel) : Call → Option Kernel
  | .slabMalloc =>
    (slabMalloc k.account k.cache).map fun r => ⟨r.1, r.2.1, withObject k.objects r.2.2, k.rest⟩
  | .slabFree x =>
    if x ∈ k.objects then
      (slabFree k.account k.cache x).map fun r => ⟨r.1, r.2.1, k.objects.erase x, k.rest⟩
    else none
  | .kmalloc size =>
    if size ≤ 1048576 then
      (kmalloc k.account.heap size).map fun r =>
        ⟨{ k.account with heap := r.1 }, k.cache, k.objects, withBlock k.rest size r.2⟩
    else none
  | .kfree address =>
    (k.rest.find? fun e => e.1 = address).bind fun e =>
      (kfree k.account.heap e.1).map fun r =>
        ⟨{ k.account with heap := r.1 }, k.cache, k.objects, k.rest.erase e⟩

theorem nextCall_step (k : Kernel) (e : Call) (k' : Kernel) (taken : nextCall k e = some k') :
    CallStep k e k' := by
  cases e with
  | slabMalloc =>
    obtain ⟨r, call, rfl⟩ := Option.map_eq_some_iff.mp taken
    exact .slabMalloc call
  | slabFree x =>
    unfold nextCall at taken
    dsimp only at taken
    split at taken
    · next live =>
      obtain ⟨r, call, rfl⟩ := Option.map_eq_some_iff.mp taken
      exact .slabFree live call
    · cases taken
  | kmalloc size =>
    unfold nextCall at taken
    dsimp only at taken
    split at taken
    · next admitted =>
      obtain ⟨r, call, rfl⟩ := Option.map_eq_some_iff.mp taken
      exact .kmalloc admitted call
    · cases taken
  | kfree address =>
    obtain ⟨e, found, taken⟩ := Option.bind_eq_some_iff.mp taken
    obtain ⟨r, call, rfl⟩ := Option.map_eq_some_iff.mp taken
    have here : e.1 = address := by simpa using List.find?_some found
    rw [← here]
    exact .kfree (List.mem_of_find?_eq_some found) call

def createdAtBoot (size : Nat) : Option Kernel :=
  (slabCreate ⟨slabInit (initMemory machine128), [], []⟩ size).bind fun r =>
    r.2.map fun c => ⟨r.1, c, [], []⟩

theorem created_at_boot {size : Nat} {k : Kernel} (made : createdAtBoot size = some k) :
    Created machine128 size k := by
  obtain ⟨⟨a, c⟩, call, made⟩ := Option.bind_eq_some_iff.mp made
  obtain ⟨c, rfl, rfl⟩ := Option.map_eq_some_iff.mp made
  exact ⟨⟨[], HeapRuns.boot machine128, .nil _, rfl, call⟩, rfl⟩

/- Both objects of the first slab, a block of the rest of the kernel between them, and what is done
   with the objects then: last takes the oldest one. -/
def malloc : Kernel → Option Call := fun _ => some .slabMalloc
def free : Kernel → Option Call := fun k => k.objects.getLast?.map .slabFree
def twoObjects (calls : List (Kernel → Option Call)) : List (Kernel → Option Call) :=
  [malloc, fun _ => some (.kmalloc 524288), malloc] ++ calls

theorem run_at_boot {size : Nat} {choices : List (Kernel → Option Call)} {seen : Nat × Nat}
    (ran : ((createdAtBoot size).bind fun k => (pick nextCall k choices).map fun r =>
      (r.2.objects.length, r.2.rest.length)) = some seen) :
    ∃ k₀ es k, Created machine128 size k₀ ∧ Steps CallStep k₀ es k ∧
      k.objects.length = seen.1 ∧ k.rest.length = seen.2 := by
  obtain ⟨k₀, made, ran⟩ := Option.bind_eq_some_iff.mp ran
  obtain ⟨r, picked, rfl⟩ := Option.map_eq_some_iff.mp ran
  exact ⟨k₀, r.1, r.2, created_at_boot made,
    @steps_of_pick _ _ CallStep nextCall _ _ _ choices nextCall_step picked, rfl, rfl⟩

theorem one_freed_and_taken : ∃ k₀ es k, Created machine128 1048576 k₀ ∧ Steps CallStep k₀ es k ∧
    k.objects.length = 2 ∧ k.rest.length = 1 :=
  @run_at_boot 1048576 (twoObjects [free, malloc]) (2, 1) (by decide +kernel)

theorem counters_off_two_objects : ∃ k₀ es k, Created machine128 1048576 k₀ ∧
    Steps CallStep k₀ es k ∧ k.objects.length = 2 ∧ k.rest.length = 1 ∧
    ¬ Counted k.cache k.objects ∧ CountedBeside k.cache k.objects := by
  obtain ⟨k₀, es, k, created, run, objects, rest⟩ := one_freed_and_taken
  exact ⟨k₀, es, k, created, run, objects, rest,
    counters_off machine128 HeapRuns.machine128_bootable 1048576 (by decide) (by decide) k₀ k es
      created run⟩

/- The first slab has no object and is said to have one. -/
theorem first_slab_miscounted : ∃ k, Created machine128 pageSize k ∧ k.objects = [] ∧
    ¬ Counted k.cache k.objects := by
  obtain ⟨k, created, -⟩ := cache_of_2mb
  have kernel := (created_ok HeapRuns.machine128_bootable (by decide) created).1
  have fits := created_size HeapRuns.machine128_bootable (by decide) (Nat.le_refl _) created kernel
  have empty := created.objects
  refine ⟨k, created, empty, fun counted => pool_used kernel.cache fits ?_⟩
  rw [counted.using_count _ List.mem_cons_self, empty]
  rfl

/- What the users of a cache rely on. -/

/-- size is what slab_create was asked for, pool the first slab. The blocks and pages are those
that the calls on the cache have taken and not given back; none is given back twice, since to give
back what is not held is no step. -/
structure CacheSafe (area : Nat → Prop) (size pool : Nat) (k : Kernel) : Prop where
  disjoint : k.objects.Pairwise fun x y => Apart (x, size) (y, size)
  inside : ∀ x ∈ k.objects, ∃ s ∈ ring k.cache, (k.cache.slab s).vaddress ≤ x ∧
    x + size ≤ (k.cache.slab s).vaddress + pageSize
  listed : k.cache.cachePool = pool
  held : (pool, slabBytes) ∈ k.account.blocks ∧ (k.cache.slab pool).page ∈ k.account.pages
  frees : ∀ x ∈ k.objects, ∃ a c, slabFree k.account k.cache x = some (a, c, 1)
  destroys : k.objects = [] → ∃ a, slabDestroy k.account k.cache = some (a, 1) ∧ a.blocks = [] ∧
    a.pages = [] ∧ Inv area [] k.rest a.heap

theorem align_le {size : Nat} : size ≤ sizeofLongAlign size := by
  unfold sizeofLongAlign
  omega

/- Two objects are two colors of one slab or lie in two pages. -/
theorem objects_apart {y : Nat} (balanced : Balanced boot Q otherPages otherBlocks a)
    (ok : CacheOk a c objects) (hasX : x ∈ objects) (hasY : y ∈ objects) (differ : x ≠ y) :
    Apart (x, c.size) (y, c.size) := by
  obtain ⟨s, j, first⟩ := ok.object x hasX
  obtain ⟨t, k, second⟩ := ok.object y hasY
  intro byte both
  have inX := both.1
  have inY := both.2
  unfold Within at inX inY
  dsimp only at inX inY
  have endX := object_end ok first
  have endY := object_end ok second
  have startX := first.address
  have startY := second.address
  have heldX : holds (c.slab s) byte = true := holds_iff.mpr (by omega)
  have heldY : holds (c.slab t) byte = true := holds_iff.mpr (by omega)
  have same := held_unique balanced ok first.listed second.listed heldX heldY
  subst same
  -- the byte has the color of both
  have colorX : (byte - (c.slab s).vaddress) / c.size = j := by
    rw [Nat.div_eq_iff ok.positive]
    rw [Nat.mul_comm j]
    omega
  have colorY : (byte - (c.slab s).vaddress) / c.size = k := by
    rw [Nat.div_eq_iff ok.positive]
    rw [Nat.mul_comm k]
    omega
  exact differ (by rw [startX, startY, ← colorX, colorY])

def OfCache : Call → Prop
  | .slabMalloc => True
  | .slabFree _ => True
  | .kmalloc _ => False
  | .kfree _ => False

theorem rest_same {k₀ k : Kernel} {es : List Call} (own : ∀ e ∈ es, OfCache e)
    (run : Steps CallStep k₀ es k) : k.rest = k₀.rest := by
  induction run with
  | nil => rfl
  | @cons k₀ k₁ k e es step rest ih =>
    rw [ih fun f later => own f (List.mem_cons_of_mem _ later)]
    have here := own e List.mem_cons_self
    cases step with
    | slabMalloc => rfl
    | slabFree => rfl
    | kmalloc => cases here
    | kfree => cases here

/-- The objects of a cache are apart and inside its slabs, its first slab is never given back, and
slab_destroy gives everything back once. When only the cache was used, the blocks that are left
are those from before slab_create. -/
theorem cache_safe (b : Machine) (bootable : Bootable b) (size : Nat) (positive : 0 < size)
    (k₀ k : Kernel) (es : List Call) (created : Created b size k₀)
    (run : Steps CallStep k₀ es k) : CacheSafe (bootArea b) size k₀.cache.cachePool k ∧
      ((∀ e ∈ es, OfCache e) → k.rest = k₀.rest) := by
  refine ⟨?_, fun own => rest_same own run⟩
  have ok := run_ok bootable positive created run
  have cache := ok.cache
  have sized : k.cache.size = sizeofLongAlign size :=
    ok.same.size.trans (created_ok bootable positive created).2
  have within : size ≤ k.cache.size := sized ▸ align_le
  have first : k.cache.cachePool ∈ ring k.cache := List.mem_cons_self
  refine ⟨?_, ?_, ok.same.cachePool, ⟨?_, ?_⟩, ?_, ?_⟩
  · refine cache.objects_nodup.imp_of_mem fun hasX hasY differ byte both => ?_
    refine objects_apart ok.balanced cache hasX hasY differ byte ⟨?_, ?_⟩
    · exact ⟨both.1.1, Nat.lt_of_lt_of_le both.1.2 (Nat.add_le_add_left within _)⟩
    · exact ⟨both.2.1, Nat.lt_of_lt_of_le both.2.2 (Nat.add_le_add_left within _)⟩
  · intro x member
    obtain ⟨s, j, object⟩ := cache.object x member
    have last := object_end cache object
    have address := object.address
    exact ⟨s, object.listed, by omega, by omega⟩
  · rw [← ok.same.cachePool]
    exact cache.owned.blocks.mem_iff.mpr (List.mem_cons_of_mem _ List.mem_cons_self)
  · rw [← ok.same.cachePool]
    exact cache.owned.pages.mem_iff.mpr (List.mem_map_of_mem first)
  · intro x member
    obtain ⟨a, c, freed, -⟩ := slab_free_ok (no_rule _ []) ok.balanced cache member
    exact ⟨a, c, freed⟩
  · intro empty
    obtain ⟨a, destroyed, balanced, blocks, pages⟩ := slab_destroy_ok (no_rule _ []) ok.balanced (empty ▸ cache)
    refine ⟨a, destroyed, blocks, pages, ?_⟩
    have inv := balanced.toInv
    rw [blocks, pages] at inv
    exact inv

theorem cache_safe_two_objects : (∃ k₀ es k, Created machine128 1048576 k₀ ∧
      Steps CallStep k₀ es k ∧ k.objects.length = 2 ∧ k.rest.length = 1 ∧
      CacheSafe (bootArea machine128) 1048576 k₀.cache.cachePool k) ∧
    ∃ k₀ es k a, Created machine128 1048576 k₀ ∧ Steps CallStep k₀ es k ∧ k.rest.length = 1 ∧
      slabDestroy k.account k.cache = some (a, 1) ∧ a.blocks = [] ∧ a.pages = [] := by
  have bootable := HeapRuns.machine128_bootable
  refine ⟨?_, ?_⟩
  · obtain ⟨k₀, es, k, created, run, objects, rest⟩ := one_freed_and_taken
    exact ⟨k₀, es, k, created, run, objects, rest,
      (cache_safe machine128 bootable 1048576 (by decide) k₀ k es created run).1⟩
  · obtain ⟨k₀, es, k, created, run, objects, rest⟩ :=
      @run_at_boot 1048576 (twoObjects [free, free]) (0, 1) (by decide +kernel)
    have safe := (cache_safe machine128 bootable 1048576 (by decide) k₀ k es created run).1
    obtain ⟨a, destroyed, blocks, pages, _⟩ := safe.destroys (List.length_eq_zero_iff.mp objects)
    exact ⟨k₀, es, k, a, created, run, rest, destroyed, blocks, pages⟩

end SlabCache

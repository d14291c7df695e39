import Q2os.BootPages
import Q2os.SlabCacheRuns

/- Runs of kmalloc, kfree, alloc_pages, free_pages and the calls on any number of slab caches
   from boot: a free page is clean. -/
namespace CleanRuns
open Bitmap PageAllocator PageRuns Kmalloc KmallocPages HeapInvariant KmallocSlabs KmallocSafety
  PageRules CleanPages BootPages SlabInit SlabCache Run

variable {boot : Nat → Prop} {raw pending : List Nat} {extra : List (Nat × Nat)} {h : Heap}
  {g₀ : Gmd}

theorem charged_mem {raw' : List Nat} {g : Gmd} (same : ∀ p, p ∈ raw' ↔ p ∈ raw)
    (charged : Charged boot raw g₀ g) : Charged boot raw' g₀ g :=
  { charged with
    inited := fun p small later set absent =>
      charged.inited p small later set fun member => absent ((same p).mpr member)
    handed := fun p member => charged.handed p ((same p).mp member) }

theorem take_pages_inv {page : Nat} (zone : Nat) (attr : BitVec 64)
    (inv : Inv boot pending extra h) (charged : Charged boot raw g₀ h.g) : ∀ n,
    Clear h.g.bitsMap page n → page + n ≤ pageLimit h.g →
    Inv boot (List.range' page n ++ pending) extra
        { h with g := takePages h.g zone attr page n } ∧
      Charged boot (List.range' page n ++ raw) g₀ (takePages h.g zone attr page n) := by
  intro n
  induction n with
  | zero => exact fun _ _ => ⟨inv, charged⟩
  | succ l ih =>
    intro clear inside
    have right : ∀ k < l, (h.g.pages (page + k)).phyAddress / pageSize = page + k := by
      intro k small
      rw [inv.pages.backed (page + k) (by unfold pageLimit at inside; omega) (clear k (by omega))]
      exact Nat.mul_div_cancel_left _ (by decide)
    obtain ⟨held, counted⟩ := ih (fun k small => clear k (by omega)) (by omega)
    have layout := take_pages_layout h.g zone attr page l
    have small : page + l < 64 * ((takePages h.g zone attr page l).bitsLength / 8) := by
      rw [layout.length]
      unfold pageLimit at inside
      omega
    have free : bit (takePages h.g zone attr page l).bitsMap (page + l) = false := by
      rw [bit_take_pages _ _ _ right, if_neg (fun within => by have := within.2; omega)]
      exact clear l (Nat.lt_succ_self l)
    have takes := takes_one zone attr held.pages small free
    have limit : page + l < pageLimit g₀ := by
      unfold pageLimit
      rw [← counted.layout.length]
      exact small
    have front : ((page + l) :: (List.range' page l ++ pending)).Perm
        (List.range' page (l + 1) ++ pending) := by
      rw [List.range'_1_concat, List.append_assoc]
      exact List.perm_middle.symm
    have taken := taken_page_inv held takes
    refine ⟨inv_perm_pages front.symm taken, ?_⟩
    refine charged_mem (fun p => ?_) (take_charged zone attr counted limit free takes.address)
    rw [List.range'_1_concat]
    simp only [List.mem_append, List.mem_cons, List.not_mem_nil, or_false]
    tauto

theorem release_pages_inv {page : Nat} : ∀ (n : Nat) (pending raw : List Nat),
    (∀ p ∈ raw, p ∈ pending) → Inv boot (List.range' page n ++ pending) extra h →
    Charged boot (List.range' page n ++ raw) g₀ h.g →
    Inv boot pending extra { h with g := releasePages h.g page n } ∧
      Charged boot raw g₀ (releasePages h.g page n) := by
  intro n
  induction n with
  | zero => exact fun _ _ _ inv charged => ⟨inv, charged⟩
  | succ l ih =>
    intro pending raw covers inv charged
    rw [List.range'_1_concat, List.append_assoc] at inv charged
    have more : ∀ p ∈ [page + l] ++ raw, p ∈ [page + l] ++ pending := by
      intro p member
      rcases List.mem_cons.mp member with rfl | old
      · exact List.mem_cons_self
      · exact List.mem_cons_of_mem _ (covers p old)
    obtain ⟨held, counted⟩ := ih _ _ more inv charged
    have absent : page + l ∉ raw := fun member =>
      (List.nodup_cons.mp held.pending_nodup).1 (covers _ member)
    have address := held.pending_mapped (page + l) List.mem_cons_self
    have returned := returned_page_inv held (release_one held.pages address)
    rw [free_one_eq] at returned
    exact ⟨returned, release_charged counted absent address⟩

structure Held where
  blocks : List (Nat × Nat)
  pages : List Nat
  cache : Cache
  objects : List Nat

structure System where
  heap : Heap
  live : List (Nat × Nat)
  runs : List (Nat × Nat)
  caches : List Held

inductive Event where
  | kmalloc (size : Nat)
  | kfree (address : Nat)
  | allocPages (zoneSelect number : Int) (flags : BitVec 64)
  | freePages (page : Nat) (number : Int)
  | slabCreate (size : Nat)
  | slabMalloc (cache : Nat)
  | slabFree (cache address : Nat)
  | slabDestroy (cache : Nat)

def account (h : Heap) (k : Held) : Account := ⟨h, k.blocks, k.pages⟩

inductive Step : System → Event → System → Prop where
  | kmalloc {s : System} {size : Nat} {h : Heap} {r : Option Nat}
      (call : kmalloc s.heap size = some (h, r)) :
      Step s (.kmalloc size) { s with heap := h, live := withBlock s.live size r }
  | kfree {s : System} {e : Nat × Nat} {h : Heap} {r : Nat} (live : e ∈ s.live)
      (call : kfree s.heap e.1 = some (h, r)) :
      Step s (.kfree e.1) { s with heap := h, live := s.live.erase e }
  | allocPages {s : System} {zoneSelect number : Int} {flags : BitVec 64} :
      Step s (.allocPages zoneSelect number flags)
        { s with
          heap := { s.heap with g := (PageAllocator.allocPages s.heap.g zoneSelect number).1 }
          runs := record s.runs (PageAllocator.allocPages s.heap.g zoneSelect number).2 number }
  | freePages {s : System} {page : Nat} {number : Int} (held : (page, number.toNat) ∈ s.runs)
      (valid : 0 < number ∧ number < 64) :
      Step s (.freePages page number)
        { s with
          heap := { s.heap with g := PageAllocator.freePages s.heap.g (some page) number }
          runs := s.runs.erase (page, number.toNat) }
  | slabCreate {s : System} {size : Nat} {a : Account} {made : Option Cache} (positive : 0 < size)
      (call : SlabCache.slabCreate ⟨s.heap, [], []⟩ size = some (a, made)) :
      Step s (.slabCreate size)
        { s with
          heap := a.heap
          caches := (made.map fun c => ⟨a.blocks, a.pages, c, []⟩).toList ++ s.caches }
  | slabMalloc {h : Heap} {live runs : List (Nat × Nat)} {front back : List Held} {k : Held}
      {a : Account} {c : Cache} {r : Option Nat}
      (call : SlabCache.slabMalloc (account h k) k.cache = some (a, c, r)) :
      Step ⟨h, live, runs, front ++ k :: back⟩ (.slabMalloc k.cache.address)
        ⟨a.heap, live, runs,
          front ++ ⟨a.blocks, a.pages, c, withObject k.objects r⟩ :: back⟩
  | slabFree {h : Heap} {live runs : List (Nat × Nat)} {front back : List Held} {k : Held}
      {a : Account} {c : Cache} {x r : Nat} (live_object : x ∈ k.objects)
      (call : SlabCache.slabFree (account h k) k.cache x = some (a, c, r)) :
      Step ⟨h, live, runs, front ++ k :: back⟩ (.slabFree k.cache.address x)
        ⟨a.heap, live, runs, front ++ ⟨a.blocks, a.pages, c, k.objects.erase x⟩ :: back⟩
  | slabDestroy {h : Heap} {live runs : List (Nat × Nat)} {front back : List Held} {k : Held}
      {a : Account} {r : Nat}
      (call : SlabCache.slabDestroy (account h k) k.cache = some (a, r)) :
      Step ⟨h, live, runs, front ++ k :: back⟩ (.slabDestroy k.cache.address)
        ⟨a.heap, live, runs, front ++ (if r = 1 then [] else [k]) ++ back⟩

/-- What slab_create and slab_malloc have obtained a page for finds a color map, and alloc_pages
finds no run that leaves the bitmap. -/
def Allowed (s : System) : Event → Prop
  | .slabCreate size => ¬ FirstMapRefused ⟨s.heap, [], []⟩ size
  | .slabMalloc cache => ∀ k ∈ s.caches, k.cache.address = cache → k.cache.totalFree = 0 →
    ¬ MapRefused (account s.heap k) (pageSize / k.cache.size)
  | .allocPages zoneSelect number _ =>
    ∀ first stop attr i page, zoneRange s.heap.g zoneSelect = some (first, stop, attr) →
      FirstCandidate s.heap.g number.toNat first stop i page →
      page + number.toNat ≤ pageLimit s.heap.g
  | _ => True

/-- A free page is clean, and the links of the zones agree with the references to their pages. -/
structure Clean (g₀ g : Gmd) : Prop where
  free : ∀ p < pageLimit g₀, bit g.bitsMap p = false →
    (g.pages p).referenceCount = 0 ∧ (g.pages p).attr = 0
  links : Linked g₀ g

def start (b : Machine) : System := ⟨slabInit (initMemory b), [], [], []⟩

def runPages (runs : List (Nat × Nat)) : List Nat := runs.flatMap fun r => List.range' r.1 r.2

structure Sound (boot : Nat → Prop) (g₀ : Gmd) (s : System) : Prop where
  inv : Inv boot (s.caches.flatMap Held.pages ++ runPages s.runs)
    (s.caches.flatMap Held.blocks ++ s.live) s.heap
  charged : Charged boot (runPages s.runs) g₀ s.heap.g
  caches : ∀ k ∈ s.caches, CacheOk (account s.heap k) k.cache k.objects

theorem cache_ok_heap {h' : Heap} {k : Held} (ok : CacheOk (account h k) k.cache k.objects) :
    CacheOk (account h' k) k.cache k.objects :=
  { ok with owned := ⟨ok.owned.blocks, ok.owned.pages⟩ }

theorem flat_perm {β : Type} (f : Held → List β) (front back : List Held) (k : Held)
    (rest : List β) : ((front ++ k :: back).flatMap f ++ rest).Perm
      (f k ++ ((front ++ back).flatMap f ++ rest)) := by
  have moved : (front ++ k :: back).Perm (k :: (front ++ back)) := List.perm_middle
  have flat := (moved.flatMap_right f).append_right rest
  rw [List.flatMap_cons, List.append_assoc] at flat
  exact flat

section Steps
variable {s s' : System} {front back : List Held} {k : Held} {live runs : List (Nat × Nat)}

theorem alloc_pages_sound {zoneSelect number : Int} {flags : BitVec 64} (sound : Sound boot g₀ s)
    (allowed : Allowed s (.allocPages zoneSelect number flags)) :
    Sound boot g₀ { s with
      heap := { s.heap with g := (allocPages s.heap.g zoneSelect number).1 }
      runs := record s.runs (allocPages s.heap.g zoneSelect number).2 number } := by
  by_cases valid : 0 < number ∧ number < 64
  · cases returned : (allocPages s.heap.g zoneSelect number).2 with
    | none =>
      rw [alloc_pages_none valid returned]
      exact sound
    | some page =>
      obtain ⟨first, stop, attr, zone, range, found, taken⟩ :=
        alloc_pages_first sound.inv.pages.extend valid returned
      have inside := allowed first stop attr zone page range found
      obtain ⟨z, selected, low, high, clear⟩ := found.1
      obtain ⟨inv, charged⟩ :=
        take_pages_inv zone attr sound.inv sound.charged number.toNat clear inside
      rw [taken]
      refine ⟨inv_perm_pages ?_ inv, charged, fun k member => cache_ok_heap (sound.caches k member)⟩
      have pages : runPages ((page, number.toNat) :: s.runs) =
          List.range' page number.toNat ++ runPages s.runs := List.flatMap_cons
      change (s.caches.flatMap Held.pages ++ runPages ((page, number.toNat) :: s.runs)).Perm _
      rw [pages]
      exact List.perm_append_comm_assoc ..
  · have invalid : number ≥ 64 ∨ number ≤ 0 := by omega
    have nothing : allocPages s.heap.g zoneSelect number = (s.heap.g, none) := by
      unfold allocPages
      rw [if_pos invalid]
    rw [nothing]
    exact sound

theorem free_pages_sound {page : Nat} {number : Int} (sound : Sound boot g₀ s)
    (held : (page, number.toNat) ∈ s.runs) (valid : 0 < number ∧ number < 64) :
    Sound boot g₀ { s with
      heap := { s.heap with g := freePages s.heap.g (some page) number }
      runs := s.runs.erase (page, number.toNat) } := by
  have front : (runPages s.runs).Perm
      (List.range' page number.toNat ++ runPages (s.runs.erase (page, number.toNat))) :=
    (List.perm_cons_erase held).flatMap_right _
  have inv := inv_perm_pages (((List.perm_append_comm_assoc _ _ _).trans
    (front.symm.append_left _))) sound.inv
  have charged := charged_mem (fun p => (front.mem_iff (a := p)).symm) sound.charged
  have same : freePages s.heap.g (some page) number = releasePages s.heap.g page number.toNat := by
    have inRange : ¬ (number ≥ 64 ∨ number ≤ 0) := by omega
    unfold freePages
    dsimp only
    rw [if_neg inRange]
  rw [same]
  obtain ⟨inv', charged'⟩ := release_pages_inv number.toNat _ _
    (fun p member => List.mem_append_right _ member) inv charged
  exact ⟨inv', charged', fun k member => cache_ok_heap (sound.caches k member)⟩

theorem cache_balanced (sound : Sound boot g₀ ⟨h, live, runs, front ++ k :: back⟩) :
    Balanced boot (Charged boot (runPages runs) g₀)
      ((front ++ back).flatMap Held.pages ++ runPages runs)
      ((front ++ back).flatMap Held.blocks ++ live) (account h k) where
  toInv := inv_perm (flat_perm Held.blocks front back k live).symm
    (inv_perm_pages (flat_perm Held.pages front back k (runPages runs)).symm sound.inv)
  kept := sound.charged

theorem sound_of_balanced {a : Account} {c : Cache} {objects : List Nat}
    (sound : Sound boot g₀ ⟨h, live, runs, front ++ k :: back⟩)
    (balanced : Balanced boot (Charged boot (runPages runs) g₀)
      ((front ++ back).flatMap Held.pages ++ runPages runs)
      ((front ++ back).flatMap Held.blocks ++ live) a) (ok : CacheOk a c objects) :
    Sound boot g₀ ⟨a.heap, live, runs, front ++ ⟨a.blocks, a.pages, c, objects⟩ :: back⟩ where
  inv := inv_perm (flat_perm Held.blocks front back ⟨a.blocks, a.pages, c, objects⟩ live)
    (inv_perm_pages (flat_perm Held.pages front back ⟨a.blocks, a.pages, c, objects⟩ (runPages runs))
      balanced.toInv)
  charged := balanced.kept
  caches := by
    intro t member
    rcases List.mem_append.mp member with before | after
    · exact cache_ok_heap (sound.caches t (List.mem_append_left _ before))
    · rcases List.mem_cons.mp after with rfl | behind
      · exact ok
      · exact cache_ok_heap (sound.caches t
          (List.mem_append_right _ (List.mem_cons_of_mem _ behind)))

theorem spares_of_not {P : Prop} {Q : Gmd → Prop} (never : ¬ P) : P → Spares Q :=
  fun refused => absurd refused never

theorem slab_create_sound {size : Nat} {a : Account} {made : Option Cache} (rooted : Rooted g₀)
    (sound : Sound boot g₀ s) (allowed : Allowed s (.slabCreate size)) (positive : 0 < size)
    (call : slabCreate ⟨s.heap, [], []⟩ size = some (a, made)) :
    Sound boot g₀ { s with
      heap := a.heap
      caches := (made.map fun c => ⟨a.blocks, a.pages, c, []⟩).toList ++ s.caches } := by
  have rule := @charged_rule boot (runPages s.runs) g₀
    (s.caches.flatMap Held.pages ++ runPages s.runs) rooted fun p => List.mem_append_right _
  have balanced : Balanced boot (Charged boot (runPages s.runs) g₀)
      (s.caches.flatMap Held.pages ++ runPages s.runs) (s.caches.flatMap Held.blocks ++ s.live)
      ⟨s.heap, [], []⟩ := ⟨sound.inv, sound.charged⟩
  obtain ⟨kept, undone, done⟩ :=
    create_ok rule (spares_of_not allowed) positive balanced rfl rfl call
  have old : ∀ k ∈ s.caches, CacheOk (account a.heap k) k.cache k.objects :=
    fun k member => cache_ok_heap (sound.caches k member)
  cases made with
  | none =>
    obtain ⟨blocks, pages⟩ := undone rfl
    have inv := kept.toInv
    rw [blocks, pages] at inv
    exact ⟨inv, kept.kept, old⟩
  | some c =>
    have inv := kept.toInv
    rw [← List.append_assoc, ← List.append_assoc] at inv
    refine ⟨inv, kept.kept, fun k member => ?_⟩
    rcases List.mem_cons.mp member with rfl | before
    · exact (done c rfl).1
    · exact old k before

theorem step_sound {e : Event} (rooted : Rooted g₀) (sound : Sound boot g₀ s)
    (step : Step s e s') (allowed : Allowed s e) : Sound boot g₀ s' := by
  cases step with
  | @kmalloc s size h r call =>
    have rule := @charged_rule boot (runPages s.runs) g₀
      (s.caches.flatMap Held.pages ++ runPages s.runs) rooted fun p => List.mem_append_right _
    have inv := (kmalloc_spec _ _ _ _ _ _ _ sound.inv call).1
    have kept := kmalloc_keeps rule _ _ _ _ _ _ sound.inv sound.charged call
    refine ⟨?_, kept, fun k member => cache_ok_heap (sound.caches k member)⟩
    cases r with
    | none => exact inv
    | some address => exact inv_perm List.perm_middle inv
  | @kfree s e h r held call =>
    have rule := @charged_rule boot (runPages s.runs) g₀
      (s.caches.flatMap Held.pages ++ runPages s.runs) rooted fun p => List.mem_append_right _
    have front : (e :: (s.caches.flatMap Held.blocks ++ s.live.erase e)).Perm
        (s.caches.flatMap Held.blocks ++ s.live) :=
      (List.perm_middle.symm).trans ((List.perm_cons_erase held).symm.append_left _)
    have moved := inv_perm front sound.inv
    obtain ⟨h', r', returned, inv⟩ := kfree_spec e.2 _ _ _ _ _ (Nat.le_refl _) moved
    have kept := kfree_keeps rule.drop e.2 _ e _ _ _ _ (fun p member => member) (Nat.le_refl _) moved
      sound.charged call
    rw [returned] at call
    cases call
    exact ⟨inv, kept, fun k member => cache_ok_heap (sound.caches k member)⟩
  | allocPages => exact alloc_pages_sound sound allowed
  | freePages held valid => exact free_pages_sound sound held valid
  | slabCreate positive call => exact slab_create_sound rooted sound allowed positive call
  | @slabMalloc h live runs front back k a c r call =>
    have rule := @charged_rule boot (runPages runs) g₀
      ((front ++ back).flatMap Held.pages ++ runPages runs) rooted fun p => List.mem_append_right _
    have member : k ∈ front ++ k :: back := List.mem_append_right _ List.mem_cons_self
    obtain ⟨balanced, ok, -⟩ := slab_malloc_ok rule
      (fun full => spares_of_not (allowed k member rfl full)) (cache_balanced sound)
      (sound.caches k member) call
    exact sound_of_balanced sound balanced ok
  | @slabFree h live runs front back k a c x r held call =>
    have rule := @charged_rule boot (runPages runs) g₀
      ((front ++ back).flatMap Held.pages ++ runPages runs) rooted fun p => List.mem_append_right _
    have member : k ∈ front ++ k :: back := List.mem_append_right _ List.mem_cons_self
    obtain ⟨a', c', freed, balanced, ok, -⟩ :=
      slab_free_ok rule (cache_balanced sound) (sound.caches k member) held
    rw [freed] at call
    cases call
    exact sound_of_balanced sound balanced ok
  | @slabDestroy h live runs front back k a r call =>
    have rule := @charged_rule boot (runPages runs) g₀
      ((front ++ back).flatMap Held.pages ++ runPages runs) rooted fun p => List.mem_append_right _
    have member : k ∈ front ++ k :: back := List.mem_append_right _ List.mem_cons_self
    have ok := sound.caches k member
    by_cases used : k.cache.totalUsing ≠ 0
    · unfold slabDestroy at call
      rw [if_pos used] at call
      cases call
      have same : front ++ (if 0 = 1 then [] else [k]) ++ back = front ++ k :: back := by
        rw [if_neg (by decide), List.append_assoc]
        rfl
      rw [same]
      exact sound
    · have empty : k.objects = [] := by
        refine List.length_eq_zero_iff.mp (ok.used.symm.trans ?_)
        exact not_not.mp used
      obtain ⟨a', destroyed, balanced, blocks, pages⟩ :=
        slab_destroy_ok rule (cache_balanced sound) (empty ▸ ok)
      rw [destroyed] at call
      cases call
      have same : front ++ (if 1 = 1 then [] else [k]) ++ back = front ++ back := by
        rw [if_pos rfl, List.append_nil]
      have inv := balanced.toInv
      rw [blocks, pages] at inv
      rw [same]
      refine ⟨inv, balanced.kept, fun t listed => ?_⟩
      refine cache_ok_heap (sound.caches t ?_)
      rcases List.mem_append.mp listed with before | behind
      · exact List.mem_append_left _ before
      · exact List.mem_append_right _ (List.mem_cons_of_mem _ behind)

end Steps

/-- In every run whose steps are allowed, every free page is clean and the links agree with the
references. -/
theorem free_pages_clean (b : Machine) (bootable : Bootable b) (es : List Event) (s : System)
    (run : Steps (Guarded Allowed Step) (start b) es s) :
    Clean (slabInit (initMemory b)).g s.heap.g := by
  have ready := boot_ready bootable
  have first : Sound (Reserved (slabInit (initMemory b))) (slabInit (initMemory b)).g (start b) :=
    ⟨ready.inv, ready.charged, fun k member => absurd member List.not_mem_nil⟩
  have sound := @invariant_of_step _ _ _
    (Sound (Reserved (slabInit (initMemory b))) (slabInit (initMemory b)).g)
    (fun s e t sound step => step_sound ready.rooted sound step.1 step.2) _ _ _ run first
  exact ⟨sound.charged.free, sound.charged.linked⟩

def Dirty (p : Nat) (g : Gmd) : Prop :=
  bit g.bitsMap p = false ∧ (g.pages p).referenceCount = 1

theorem dirty_drop {other : List Nat} (p : Nat) : DropRule boot other (Dirty p) := by
  intro g page pages own ⟨clear, one⟩
  have differ : p ≠ page := by
    rintro rfl
    rw [own.marked] at clear
    cases clear
  have address : ((pageClean g page).pages page).phyAddress = pageSize * page :=
    ((page_clean_layout g page).phys page).trans own.mapped
  rw [free_one_eq]
  refine ⟨?_, ?_⟩
  · rw [bit_release_one address, if_neg (Ne.symm differ), page_clean_bits]
    exact clear
  · rw [release_at, Function.update_of_ne differ, page_clean_away differ]
    exact one

theorem kmalloc_refused {size : Nat} (small : size ≤ 1048576)
    (full : h.totalFree (sizeClass size) = 0) (none_left : (allocPages h.g zoneNormal 1).2 = none) :
    kmalloc h size = some (h, none) := by
  unfold kmalloc kmallocDepth kmallocBody
  rw [if_neg (Nat.not_lt.mpr small)]
  dsimp only
  rw [if_neg (not_not.mpr full)]
  unfold kmallocCreate
  generalize allocPages h.g zoneNormal 1 = r at none_left
  obtain ⟨g, page⟩ := r
  cases page with
  | none => rfl
  | some page => cases none_left

/- slab_create for objects of 8 bytes needs a color map of 32KB. -/
theorem refused_create {g₁ : Gmd} {p : Nat} (rooted : Rooted g₀)
    (inv : Inv boot pending extra h) (charged : Charged boot raw g₀ h.g)
    (covers : ∀ q ∈ raw, q ∈ pending) (some1 : h.totalFree 1 ≠ 0) (some2 : h.totalFree 2 ≠ 0)
    (full : h.totalFree 10 = 0) (page : allocPages h.g zoneNormal 1 = (g₁, some p))
    (last : (allocPages (pageInit g₁ p pgKernel) zoneNormal 1).2 = none) :
    ∃ a, slabCreate ⟨h, [], []⟩ 8 = some (a, none) ∧ Dirty p a.heap.g := by
  have rule := @charged_rule boot raw g₀ pending rooted covers
  have drop := @dirty_drop boot pending p
  have balanced : Balanced boot (Charged boot raw g₀) pending extra ⟨h, [], []⟩ := ⟨inv, charged⟩
  have class1 : sizeClass slabCacheBytes = 1 := by decide
  have class2 : sizeClass slabBytes = 2 := by decide
  have class10 : sizeClass 32768 = 10 := by decide
  obtain ⟨a₁, address, first, slot₁⟩ := take_block_some balanced (by decide) (class1 ▸ some1)
  obtain ⟨balanced₁, pages₁, blocks₁⟩ := take_block_spec rule balanced first
  have left₂ : a₁.heap.totalFree 2 ≠ 0 := by
    rw [slot₁.away 2 (by rw [class1]; decide)]
    exact some2
  obtain ⟨a₂, slab, second, slot₂⟩ := take_block_some balanced₁ (by decide) (class2 ▸ left₂)
  obtain ⟨balanced₂, pages₂, blocks₂⟩ := take_block_spec rule balanced₁ second
  have pages : allocPages a₂.heap.g zoneNormal 1 = (g₁, some p) := by
    rw [slot₂.g, slot₁.g]
    exact page
  let a₃ : Account :=
    { a₂ with heap := { a₂.heap with g := pageInit g₁ p pgKernel }, pages := p :: a₂.pages }
  have third : takePage a₂ = some (a₃, p) := by
    unfold takePage
    rw [pages]
  obtain ⟨balanced₃, pages₃, blocks₃, mapped⟩ := take_page_spec rule balanced₂ third
  have fourth : takeBlock a₃ 32768 = some (a₃, none) := by
    have none_free : a₃.heap.totalFree (sizeClass 32768) = 0 := by
      have same : a₃.heap.totalFree = a₂.heap.totalFree := rfl
      rw [same, class10, slot₂.away 10 (by rw [class2]; decide),
        slot₁.away 10 (by rw [class1]; decide)]
      exact full
    unfold takeBlock
    rw [kmalloc_refused (by decide) none_free last]
    rfl
  have held : p ∈ a₃.pages := List.mem_cons_self
  obtain ⟨a₄, freed, inv₄, same₄, pages₄, blocks₄⟩ := free_page_inv balanced₃.toInv held
  -- the page goes back with the reference that page_init gave it
  have pending₃ : p ∈ a₃.pages ++ pending := List.mem_append_left _ held
  have own := balanced₃.toInv.reserved p (Or.inr pending₃)
  have small := rooted p ((balanced₃.kept.layout.phys p).symm.trans mapped)
  have absent : p ∉ raw := fun member =>
    (List.nodup_append.mp balanced₃.pending_nodup).2.2 p held p (covers p member) rfl
  have one := balanced₃.kept.inited p small (balanced₃.toInv.apart p pending₃) own.1 absent
  have dirty : Dirty p a₄.heap.g := by
    rw [same₄, free_one_eq]
    refine ⟨?_, ?_⟩
    · rw [bit_release_one mapped, if_pos rfl]
    · rw [release_at, Function.update_self]
      exact one
  have blocks : a₄.blocks = [(slab, slabBytes), (address, slabCacheBytes)] := by
    rw [blocks₄, blocks₃, blocks₂, blocks₁]
    rfl
  have balanced₄ : Balanced boot (Dirty p) pending extra a₄ := ⟨inv₄, dirty⟩
  have struct : (slab, slabBytes) ∈ a₄.blocks := by
    rw [blocks]
    exact List.mem_cons_self
  obtain ⟨a₅, fifth, balanced₅, pages₅, blocks₅⟩ := give_block_spec drop balanced₄ struct
  have cache : (address, slabCacheBytes) ∈ a₅.blocks := by
    rw [blocks₅, blocks, List.erase_cons_head]
    exact List.mem_cons_self
  obtain ⟨a₆, sixth, balanced₆, -, -⟩ := give_block_spec drop balanced₅ cache
  refine ⟨a₆, ?_, balanced₆.kept⟩
  have length : colorLengthOf (pageSize / sizeofLongAlign 8) = 32768 := by decide
  have refused : makeSlab a₁ (pageSize / sizeofLongAlign 8) (pageSize / sizeofLongAlign 8) =
      some (a₅, none) := by
    unfold makeSlab
    rw [second, length]
    dsimp only [Option.bind_eq_bind, Option.bind_some]
    rw [third]
    dsimp only
    rw [fourth]
    change ((freePage a₃ p).bind fun a => (giveBlock a slab).bind fun a => some (a, none)) = _
    rw [freed, Option.bind_some, fifth]
    rfl
  unfold slabCreate
  rw [first]
  change ((makeSlab a₁ (pageSize / sizeofLongAlign 8) (pageSize / sizeofLongAlign 8)).bind _) = _
  rw [refused]
  change ((giveBlock a₅ address).bind fun a => some (a, none)) = _
  rw [sixth]
  rfl

structure Filled (n : Nat) (h : Heap) : Prop where
  g : h.g = (slabInit (initMemory machine128)).g
  here : h.totalFree 10 = 64 - n
  away : ∀ i, i ≠ 10 → h.totalFree i = (slabInit (initMemory machine128)).totalFree i

def bootGmd : Gmd := (slabInit (initMemory machine128)).g

def Sound128 (s : System) : Prop := Sound (Reserved (slabInit (initMemory machine128))) bootGmd s

theorem fill_class (n : Nat) (most : n ≤ 64) : ∃ h live,
    Steps Step (start machine128) (List.replicate n (.kmalloc 32768)) ⟨h, live, [], []⟩ ∧
      Sound128 ⟨h, live, [], []⟩ ∧ Filled n h := by
  have ready := boot_ready HeapRuns.machine128_bootable
  induction n with
  | zero =>
    have count : (slabInit (initMemory machine128)).totalFree 10 = 64 := by decide +kernel
    exact ⟨slabInit (initMemory machine128), [], .nil _,
      ⟨ready.inv, ready.charged, fun k member => absurd member List.not_mem_nil⟩,
      rfl, count, fun i _ => rfl⟩
  | succ n ih =>
    obtain ⟨h, live, run, sound, filled⟩ := ih (by omega)
    have class10 : sizeClass 32768 = 10 := by decide
    have free : h.totalFree (sizeClass 32768) ≠ 0 := by
      rw [class10, filled.here]
      omega
    obtain ⟨h', address, call, slot⟩ := kmalloc_slot sound.inv (by decide) free
    rw [class10] at slot
    have step : Step ⟨h, live, [], []⟩ (.kmalloc 32768)
      ⟨h', withBlock live 32768 (some address), [], []⟩ := Step.kmalloc call
    have after := step_sound ready.rooted sound step trivial
    refine ⟨h', _, ?_, after, slot.g.trans filled.g, ?_, fun i other => ?_⟩
    · rw [List.replicate_succ']
      exact steps_append run (steps_single step)
    · rw [slot.here, filled.here]
      omega
    · rw [slot.away i other]
      exact filled.away i other

theorem pages_for_a_caller : (allocPages bootGmd zoneNormal 46).2 = some 17 := by decide +kernel

theorem returned_allowed {s : System} {number : Int} {page : Nat} {flags : BitVec 64}
    (extend : PageSearch.ZonesExtend s.heap.g) (valid : 0 < number ∧ number < 64)
    (returned : (allocPages s.heap.g zoneNormal number).2 = some page)
    (inside : page + number.toNat ≤ pageLimit s.heap.g) :
    Allowed s (.allocPages zoneNormal number flags) := by
  intro first stop attr i found range candidate
  have result := (search_zones_first extend (by omega)).mpr candidate
  have inRange : ¬ (number ≥ 64 ∨ number ≤ 0) := by omega
  have same : (allocPages s.heap.g zoneNormal number).2 = some found := by
    unfold allocPages
    rw [if_neg inRange, range]
    dsimp only
    rw [result]
  rw [returned] at same
  cases same
  exact inside

theorem caller_inside (h : Heap) (live : List (Nat × Nat)) (same : h.g = bootGmd) :
    Allowed ⟨h, live, [], []⟩ (.allocPages zoneNormal 46 0) := by
  have extend : PageSearch.ZonesExtend bootGmd :=
    (boot_ready HeapRuns.machine128_bootable).inv.pages.extend
  have inside : 17 + (46 : Int).toNat ≤ pageLimit bootGmd := by decide +kernel
  refine @returned_allowed ⟨h, live, [], []⟩ 46 17 0 (same ▸ extend) (by decide) ?_ (same ▸ inside)
  dsimp only
  rw [same]
  exact pages_for_a_caller

def onePage : Gmd := (allocPages bootGmd zoneNormal 46).1
def noPage : Gmd := (allocPages onePage zoneNormal 1).1

theorem last_page : allocPages onePage zoneNormal 1 = (noPage, some 63) := by
  have returned : (allocPages onePage zoneNormal 1).2 = some 63 := by decide +kernel
  rw [← returned, noPage, Prod.mk.eta]

theorem no_page_left : (allocPages (pageInit noPage 63 pgKernel) zoneNormal 1).2 = none := by
  decide +kernel

/-- The page that slab_create gives back for want of a color map is free and still has its
reference. -/
theorem free_page_dirty : ∃ es s, Steps Step (start machine128) es s ∧
    ¬ Clean (slabInit (initMemory machine128)).g s.heap.g := by
  obtain ⟨h, live, run, sound, filled⟩ := fill_class 64 (Nat.le_refl _)
  have ready := boot_ready HeapRuns.machine128_bootable
  have step : Step ⟨h, live, [], []⟩ (.allocPages zoneNormal 46 0) _ := .allocPages
  have after := step_sound ready.rooted sound step (caller_inside h live filled.g)
  have same : (allocPages h.g zoneNormal 46).1 = onePage := by
    rw [filled.g]
    rfl
  have page : allocPages (allocPages h.g zoneNormal 46).1 zoneNormal 1 = (noPage, some 63) := by
    rw [same]
    exact last_page
  have some1 : h.totalFree 1 ≠ 0 := by
    rw [filled.away 1 (by decide)]
    decide +kernel
  have some2 : h.totalFree 2 ≠ 0 := by
    rw [filled.away 2 (by decide)]
    decide +kernel
  obtain ⟨a, call, dirty⟩ := refused_create ready.rooted after.inv after.charged
    (fun p => List.mem_append_right _) some1 some2 filled.here page no_page_left
  have created := Step.slabCreate (by decide) call
  refine ⟨_, _, steps_append (steps_append run (steps_single step)) (steps_single created), ?_⟩
  intro clean
  have small : 63 < pageLimit (slabInit (initMemory machine128)).g := by decide +kernel
  have zero := (clean.free 63 small dirty.1).1
  rw [dirty.2] at zero
  cases zero

def manyPages : System :=
  ⟨{ slabInit (initMemory machine128) with g := (allocPages bootGmd zoneNormal 46).1 }, [],
    [(17, 46)], []⟩

theorem many_pages_taken :
    Guarded Allowed Step (start machine128) (.allocPages zoneNormal 46 0) manyPages := by
  have step : Step (start machine128) (.allocPages zoneNormal 46 0) _ := .allocPages
  have runs : record [] (allocPages bootGmd zoneNormal 46).2 46 = [(17, 46)] := by
    rw [pages_for_a_caller]
    rfl
  have allowed := caller_inside (slabInit (initMemory machine128)) [] rfl
  change Step (start machine128) _ ⟨_, [], record [] (allocPages bootGmd zoneNormal 46).2 46, []⟩
    at step
  rw [runs] at step
  exact ⟨step, allowed⟩

/- The pages and a block of 512KB, both given back. -/
theorem free_pages_clean_returned : ∃ address s, Steps (Guarded Allowed Step) (start machine128)
    [.allocPages zoneNormal 46 0, .kmalloc 524288, .freePages 17 46, .kfree address] s ∧
      s.live = [] ∧ s.runs = [] ∧ Clean (slabInit (initMemory machine128)).g s.heap.g := by
  have ready := boot_ready HeapRuns.machine128_bootable
  have first : Sound128 (start machine128) :=
    ⟨ready.inv, ready.charged, fun k member => absurd member List.not_mem_nil⟩
  have taken := many_pages_taken
  have sound := step_sound ready.rooted first taken.1 taken.2
  have free : manyPages.heap.totalFree (sizeClass 524288) ≠ 0 := by decide +kernel
  obtain ⟨h, address, call, _⟩ := kmalloc_slot sound.inv (by decide) free
  have block : Step manyPages (.kmalloc 524288) ⟨h, [(address, 524288)], [(17, 46)], []⟩ :=
    .kmalloc call
  have sound := step_sound ready.rooted sound block trivial
  have given : Step ⟨h, [(address, 524288)], [(17, 46)], []⟩ (.freePages 17 46)
      ⟨{ h with g := freePages h.g (some 17) 46 }, [(address, 524288)], [], []⟩ :=
    .freePages List.mem_cons_self (by decide)
  have sound := step_sound ready.rooted sound given trivial
  obtain ⟨h', r, freed, _⟩ := kfree_spec 524288 _ _ _ _ _ (Nat.le_refl _) sound.inv
  have returned : Step ⟨{ h with g := freePages h.g (some 17) 46 }, [(address, 524288)], [], []⟩
      (.kfree address) ⟨h', [(address, 524288)].erase (address, 524288), [], []⟩ :=
    .kfree (e := (address, 524288)) List.mem_cons_self freed
  have run : Steps (Guarded Allowed Step) (start machine128) _ _ :=
    .cons taken (.cons ⟨block, trivial⟩ (.cons ⟨given, trivial⟩ (steps_single ⟨returned, trivial⟩)))
  exact ⟨address, _, run, List.erase_cons_head .., rfl,
    free_pages_clean machine128 HeapRuns.machine128_bootable _ _ run⟩

end CleanRuns

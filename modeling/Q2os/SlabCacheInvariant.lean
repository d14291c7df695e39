import Q2os.SlabAccount

/- The invariant of a slab cache: its blocks and pages are those of its slabs, and its counters
   agree with its objects, but for the using_count of the first slab. -/
namespace SlabCache
open Bitmap PageAllocator PageRuns Kmalloc KmallocPages HeapInvariant KmallocSlots KmallocSlabs
  KmallocSafety PageRules

def liveIn (objects : List Nat) (v : Slab) : Nat := objects.countP (holds v)

/- What slab_create puts into using_count of the first slab. -/
def surplus (c : Cache) (s : Nat) : Nat := if s = c.cachePool then pageSize / c.size else 0

structure SlabFits (size extra : Nat) (objects : List Nat) (v : Slab) : Prop where
  mapped : v.vaddress = physToVirt (pageSize * v.page)
  count : v.colorCount = pageSize / size
  free : v.freeCount + countSet v.colors v.colorCount = v.colorCount
  used : v.usingCount = countSet v.colors v.colorCount + extra
  live : countSet v.colors v.colorCount = liveIn objects v

structure Object (c : Cache) (x s j : Nat) : Prop where
  listed : s ∈ ring c
  color : j < (c.slab s).colorCount
  address : x = (c.slab s).vaddress + c.size * j
  taken : bit (c.slab s).colors j = true

def blocksOf (c : Cache) (s : Nat) : List (Nat × Nat) :=
  [(s, slabBytes), ((c.slab s).colorMap, (c.slab s).colorLength)]

/-- What the calls hold is the struct Slab_cache and the given slabs of the cache. -/
structure Owned (a : Account) (c : Cache) (slabs : List Nat) : Prop where
  blocks : a.blocks.Perm ((c.address, slabCacheBytes) :: slabs.flatMap (blocksOf c))
  pages : a.pages.Perm (slabs.map fun s => (c.slab s).page)

structure CacheOk (a : Account) (c : Cache) (objects : List Nat) : Prop where
  positive : 0 < c.size
  owned : Owned a c (ring c)
  nodup : (ring c).Nodup
  slabs : ∀ s ∈ ring c, SlabFits c.size (surplus c s) objects (c.slab s)
  free : c.totalFree = ((ring c).map fun s => (c.slab s).freeCount).sum
  used : c.totalUsing = objects.length
  objects_nodup : objects.Nodup
  object : ∀ x ∈ objects, ∃ s j, Object c x s j

variable {boot : Nat → Prop} {Q : Gmd → Prop} {otherPages : List Nat}
  {otherBlocks : List (Nat × Nat)} {a a' : Account} {c : Cache} {objects : List Nat} {s t j x : Nat}

theorem holds_iff {v : Slab} : holds v x = true ↔ v.vaddress ≤ x ∧ x < v.vaddress + pageSize := by
  simp [holds]

theorem object_end (ok : CacheOk a c objects) (object : Object c x s j) :
    c.size * j + c.size ≤ pageSize := by
  have color := object.color
  rw [(ok.slabs s object.listed).count] at color
  have whole : c.size * (pageSize / c.size) ≤ pageSize := Nat.mul_div_le pageSize c.size
  have step := Nat.mul_le_mul_left c.size (Nat.succ_le_of_lt color)
  rw [Nat.mul_succ] at step
  omega

theorem object_fits (ok : CacheOk a c objects) (object : Object c x s j) : c.size ≤ pageSize := by
  have last := object_end ok object
  omega

theorem object_held (ok : CacheOk a c objects) (object : Object c x s j) :
    holds (c.slab s) x = true := by
  have last := object_end ok object
  have positive := ok.positive
  have address := object.address
  exact holds_iff.mpr (by omega)

theorem slab_unique (balanced : Balanced boot Q otherPages otherBlocks a) (ok : CacheOk a c objects)
    (hs : s ∈ ring c) (ht : t ∈ ring c) (same : (c.slab s).page = (c.slab t).page) : s = t :=
  List.inj_on_of_nodup_map (ok.owned.pages.nodup_iff.mp balanced.pages_nodup) hs ht same

theorem held_page {p q r : Nat} (first : physToVirt (pageSize * p) ≤ r)
    (inside : r < physToVirt (pageSize * p) + pageSize) (second : physToVirt (pageSize * q) ≤ r)
    (within : r < physToVirt (pageSize * q) + pageSize) : p = q := by
  unfold physToVirt at *
  unfold pageSize at *
  omega

theorem held_unique (balanced : Balanced boot Q otherPages otherBlocks a) (ok : CacheOk a c objects)
    (hs : s ∈ ring c) (ht : t ∈ ring c) (first : holds (c.slab s) x = true)
    (second : holds (c.slab t) x = true) : s = t := by
  have inS := holds_iff.mp first
  have inT := holds_iff.mp second
  rw [(ok.slabs s hs).mapped] at inS
  rw [(ok.slabs t ht).mapped] at inT
  exact slab_unique balanced ok hs ht (held_page inS.1 inS.2 inT.1 inT.2)

theorem free_le_total (ok : CacheOk a c objects) (listed : s ∈ ring c) :
    (c.slab s).freeCount ≤ c.totalFree := by
  have change := sum_change (f := fun u => (c.slab u).freeCount)
    (g := fun u => if u = s then 0 else (c.slab u).freeCount) ok.nodup listed
    fun u away => if_neg away
  rw [if_pos rfl] at change
  have total := ok.free
  omega

theorem count_set_lt {m : Words} {n : Nat} (inside : j < n) (clear : bit m j = false) :
    countSet m n < n := by
  have set : bit (setBit m j) j = true := (bit_setBit ..).trans (if_pos rfl)
  have more := count_set_set inside clear set fun k other => by
    rw [bit_setBit, if_neg (Ne.symm other)]
  have most := count_set_le (setBit m j) n
  omega

def storeSlab (c : Cache) (s : Nat) (v : Slab) (used free : Nat) : Cache :=
  { c with slab := Function.update c.slab s v, totalUsing := used, totalFree := free }

structure SamePlace (v v' : Slab) : Prop where
  page : v'.page = v.page
  vaddress : v'.vaddress = v.vaddress
  map : v'.colorMap = v.colorMap
  length : v'.colorLength = v.colorLength
  count : v'.colorCount = v.colorCount

theorem live_congr {v v' : Slab} (same : v'.vaddress = v.vaddress) :
    liveIn objects v' = liveIn objects v := by
  unfold liveIn holds
  rw [same]

theorem store_slab_self {v : Slab} {used free : Nat} : (storeSlab c s v used free).slab s = v := by
  change Function.update c.slab s v s = v
  rw [Function.update_self]

theorem store_slab_other {v : Slab} {used free : Nat} (other : t ≠ s) :
    (storeSlab c s v used free).slab t = c.slab t := by
  change Function.update c.slab s v t = c.slab t
  rw [Function.update_of_ne other]

theorem store_ok {v : Slab} {used free : Nat} {objects' : List Nat} (ok : CacheOk a c objects)
    (listed : s ∈ ring c) (same : SamePlace (c.slab s) v)
    (here : SlabFits c.size (surplus c s) objects' v)
    (away : ∀ t ∈ ring c, t ≠ s → liveIn objects' (c.slab t) = liveIn objects (c.slab t))
    (freed : free + (c.slab s).freeCount = c.totalFree + v.freeCount)
    (counted : used = objects'.length) (nodup : objects'.Nodup)
    (object : ∀ x ∈ objects', ∃ t j, Object (storeSlab c s v used free) x t j) :
    CacheOk a (storeSlab c s v used free) objects' := by
  have old : ∀ t, t ≠ s → (storeSlab c s v used free).slab t = c.slab t :=
    fun t other => store_slab_other other
  have new : (storeSlab c s v used free).slab s = v := store_slab_self
  have blocks : (ring c).flatMap (blocksOf (storeSlab c s v used free)) =
      (ring c).flatMap (blocksOf c) := by
    refine List.flatMap_congr fun t _ => ?_
    by_cases at_s : t = s
    · rw [at_s, blocksOf, blocksOf, new, same.map, same.length]
    · rw [blocksOf, blocksOf, old t at_s]
  have pages : ((ring c).map fun t => ((storeSlab c s v used free).slab t).page) =
      (ring c).map fun t => (c.slab t).page := by
    refine List.map_congr_left fun t _ => ?_
    by_cases at_s : t = s
    · rw [at_s, new, same.page]
    · rw [old t at_s]
  refine ⟨ok.positive, ⟨?_, ?_⟩, ok.nodup, ?_, ?_, counted, nodup, object⟩
  · exact ok.owned.blocks.trans (List.Perm.of_eq (congrArg _ blocks.symm))
  · exact ok.owned.pages.trans (List.Perm.of_eq pages.symm)
  · intro t member
    by_cases at_s : t = s
    · rw [at_s, new]
      exact here
    · have before := ok.slabs t member
      rw [old t at_s]
      exact ⟨before.mapped, before.count, before.free, before.used,
        before.live.trans (away t member at_s).symm⟩
  · have change := sum_change (f := fun u => (c.slab u).freeCount)
      (g := fun u => ((storeSlab c s v used free).slab u).freeCount) ok.nodup listed
      fun u other => by rw [old u other]
    have total := ok.free
    rw [new] at change
    change free = ((ring c).map fun u => ((storeSlab c s v used free).slab u).freeCount).sum
    omega

theorem store_object {v : Slab} {used free : Nat} (same : SamePlace (c.slab s) v)
    (object : Object c x t j) (kept : t = s → bit v.colors j = true) :
    Object (storeSlab c s v used free) x t j := by
  by_cases at_s : t = s
  · subst at_s
    refine ⟨object.listed, ?_, ?_, ?_⟩ <;> rw [store_slab_self]
    · rw [same.count]
      exact object.color
    · rw [same.vaddress]
      exact object.address
    · exact kept rfl
  · refine ⟨object.listed, ?_, ?_, ?_⟩ <;> rw [store_slab_other at_s]
    · exact object.color
    · exact object.address
    · exact object.taken

def takenSlab (v : Slab) (j : Nat) : Slab :=
  { v with
    colors := setBit v.colors j, usingCount := v.usingCount + 1, freeCount := v.freeCount - 1 }

theorem take_object_ok (balanced : Balanced boot Q otherPages otherBlocks a)
    (ok : CacheOk a c objects) (listed : s ∈ ring c) (color : j < (c.slab s).colorCount)
    (clear : bit (c.slab s).colors j = false) :
    CacheOk a (takeObject c s j).1 ((takeObject c s j).2 :: objects) := by
  have slab := ok.slabs s listed
  have fewer := count_set_lt color clear
  have set : bit (setBit (c.slab s).colors j) j = true := (bit_setBit ..).trans (if_pos rfl)
  have more := count_set_set color clear set fun k other => by
    rw [bit_setBit, if_neg (Ne.symm other)]
  have some_free := slab.free
  have total := free_le_total ok listed
  have place : SamePlace (c.slab s) (takenSlab (c.slab s) j) := ⟨rfl, rfl, rfl, rfl, rfl⟩
  have at_object : holds (c.slab s) (takeObject c s j).2 = true := by
    have below := color
    rw [slab.count] at below
    have whole : c.size * (pageSize / c.size) ≤ pageSize := Nat.mul_div_le pageSize c.size
    have step := Nat.mul_le_mul_left c.size (Nat.succ_le_of_lt below)
    rw [Nat.mul_succ] at step
    have positive := ok.positive
    unfold takeObject
    exact holds_iff.mpr (by dsimp only; omega)
  have fresh : (takeObject c s j).2 ∉ objects := by
    intro member
    obtain ⟨t, k, old⟩ := ok.object _ member
    have same := held_unique balanced ok old.listed listed (object_held ok old) at_object
    subst same
    have equal : c.size * k = c.size * j := Nat.add_left_cancel old.address.symm
    rw [← Nat.eq_of_mul_eq_mul_left ok.positive equal, old.taken] at clear
    cases clear
  have stored : (takeObject c s j).1 =
      storeSlab c s (takenSlab (c.slab s) j) (c.totalUsing + 1) (c.totalFree - 1) := rfl
  rw [stored]
  refine store_ok ok listed place ⟨slab.mapped, slab.count, ?_, ?_, ?_⟩ ?_ ?_ ?_ ?_ ?_
  · change (c.slab s).freeCount - 1 + countSet (setBit (c.slab s).colors j) (c.slab s).colorCount =
      (c.slab s).colorCount
    omega
  · change (c.slab s).usingCount + 1 =
      countSet (setBit (c.slab s).colors j) (c.slab s).colorCount + surplus c s
    rw [slab.used, more]
    exact Nat.add_right_comm _ _ 1
  · have one_more : liveIn ((takeObject c s j).2 :: objects) (c.slab s) =
        liveIn objects (c.slab s) + 1 := List.countP_cons_of_pos at_object
    rw [live_congr (show (takenSlab (c.slab s) j).vaddress = (c.slab s).vaddress from rfl), one_more,
      ← slab.live]
    exact more
  · intro t member other
    refine List.countP_cons_of_neg fun held => ?_
    exact other (held_unique balanced ok member listed held at_object)
  · change c.totalFree - 1 + (c.slab s).freeCount = c.totalFree + ((c.slab s).freeCount - 1)
    omega
  · rw [ok.used]
    rfl
  · exact List.nodup_cons.mpr ⟨fresh, ok.objects_nodup⟩
  · intro y member
    rcases List.mem_cons.mp member with rfl | old
    · refine ⟨s, j, listed, ?_, ?_, ?_⟩ <;> rw [store_slab_self]
      · exact color
      · rfl
      · exact (bit_setBit ..).trans (if_pos rfl)
    · obtain ⟨t, k, object⟩ := ok.object y old
      refine ⟨t, k, store_object place object fun at_s => ?_⟩
      have taken := object.taken
      rw [at_s] at taken
      refine (bit_setBit ..).trans ?_
      rw [taken, ite_self]

def givenSlab (v : Slab) (j : Nat) : Slab :=
  { v with
    colors := flipBit v.colors j, freeCount := v.freeCount + 1, usingCount := v.usingCount - 1 }

theorem object_index (ok : CacheOk a c objects) (object : Object c x s j) :
    (x - (c.slab s).vaddress) / c.size = j := by
  rw [object.address, Nat.add_sub_cancel_left]
  exact Nat.mul_div_cancel_left j ok.positive

theorem give_object_ok (balanced : Balanced boot Q otherPages otherBlocks a)
    (ok : CacheOk a c objects) (member : x ∈ objects) (object : Object c x s j) :
    CacheOk a (giveObject c s x) (objects.erase x) := by
  have listed := object.listed
  have slab := ok.slabs s listed
  have held := object_held ok object
  have place : SamePlace (c.slab s) (givenSlab (c.slab s) j) := ⟨rfl, rfl, rfl, rfl, rfl⟩
  have clear : bit (flipBit (c.slab s).colors j) j = false := by
    rw [bit_flipBit, if_pos rfl, object.taken]
    rfl
  have fewer := count_set_set (m := flipBit (c.slab s).colors j) object.color clear object.taken
    fun k other => by rw [bit_flipBit, if_neg (Ne.symm other)]
  have some_free := slab.free
  have front := List.perm_cons_erase member
  have stored : giveObject c s x =
      storeSlab c s (givenSlab (c.slab s) j) (c.totalUsing - 1) (c.totalFree + 1) := by
    unfold giveObject
    dsimp only
    rw [object_index ok object]
    rfl
  rw [stored]
  refine store_ok ok listed place ⟨slab.mapped, slab.count, ?_, ?_, ?_⟩ ?_ ?_ ?_ ?_ ?_
  · change (c.slab s).freeCount + 1 + countSet (flipBit (c.slab s).colors j) (c.slab s).colorCount =
      (c.slab s).colorCount
    omega
  · change (c.slab s).usingCount - 1 =
      countSet (flipBit (c.slab s).colors j) (c.slab s).colorCount + surplus c s
    rw [slab.used, fewer]
    omega
  · have one_less : liveIn objects (c.slab s) = liveIn (objects.erase x) (c.slab s) + 1 :=
      (front.countP_eq _).trans (List.countP_cons_of_pos held)
    rw [live_congr (show (givenSlab (c.slab s) j).vaddress = (c.slab s).vaddress from rfl)]
    change countSet (flipBit (c.slab s).colors j) (c.slab s).colorCount = _
    have live := slab.live
    omega
  · intro t member' other
    refine ((front.countP_eq _).trans (List.countP_cons_of_neg fun inT => ?_)).symm
    exact other (held_unique balanced ok member' listed inT held)
  · exact Nat.add_right_comm ..
  · rw [ok.used, List.length_erase_of_mem member]
  · exact ok.objects_nodup.erase x
  · intro y later
    obtain ⟨old, away⟩ := (List.Nodup.mem_erase_iff ok.objects_nodup).mp later |>.symm
    obtain ⟨t, k, other⟩ := ok.object y old
    refine ⟨t, k, store_object place other fun at_s => ?_⟩
    subst at_s
    have apart : j ≠ k := by
      intro same
      exact away (by rw [other.address, object.address, same])
    refine (bit_flipBit ..).trans ?_
    rw [if_neg apart, other.taken]

/- The first slab never looks empty. -/
theorem pool_used (ok : CacheOk a c objects) (fits : c.size ≤ pageSize) :
    (c.slab c.cachePool).usingCount ≠ 0 := by
  have used := (ok.slabs c.cachePool List.mem_cons_self).used
  have some_objects : 0 < pageSize / c.size := Nat.div_pos fits ok.positive
  rw [surplus, if_pos rfl] at used
  omega

theorem owned_perm {slabs slabs' : List Nat} (same : slabs.Perm slabs') (owned : Owned a c slabs) :
    Owned a c slabs' :=
  ⟨owned.blocks.trans ((same.flatMap_right _).cons _), owned.pages.trans (same.map _)⟩

theorem release_owned {rest : List Nat} (rule : PageRule boot otherPages Q)
    (balanced : Balanced boot Q otherPages otherBlocks a)
    (owned : Owned a c (s :: rest)) :
    ∃ a', releaseSlab a s (c.slab s) = some a' ∧ Balanced boot Q otherPages otherBlocks a' ∧
      Owned a' c rest := by
  have blocks : a.blocks.Perm ((s, slabBytes) :: ((c.slab s).colorMap, (c.slab s).colorLength) ::
      (c.address, slabCacheBytes) :: rest.flatMap (blocksOf c)) := by
    refine owned.blocks.trans ?_
    exact (List.Perm.swap _ _ _).trans ((List.Perm.swap _ _ _).cons _)
  have first := blocks.erase (s, slabBytes)
  rw [List.erase_cons_head] at first
  have second := first.erase ((c.slab s).colorMap, (c.slab s).colorLength)
  rw [List.erase_cons_head] at second
  have pages := owned.pages.erase (c.slab s).page
  rw [List.map_cons, List.erase_cons_head] at pages
  have own : SlabBlocks a s (c.slab s) :=
    ⟨owned.pages.mem_iff.mpr List.mem_cons_self, blocks.mem_iff.mpr List.mem_cons_self,
      first.mem_iff.mpr List.mem_cons_self⟩
  obtain ⟨a', released, balanced', pages', blocks'⟩ := release_slab_spec rule balanced own
  exact ⟨a', released, balanced', blocks' ▸ second, pages' ▸ pages⟩

theorem unlink_ok (ok : CacheOk a c objects) (later : s ∈ c.others)
    (empty : (c.slab s).usingCount = 0) (owned : Owned a' c (ring (unlinkSlab c s))) :
    CacheOk a' (unlinkSlab c s) objects := by
  have listed : s ∈ ring c := List.mem_cons_of_mem _ later
  have front : (ring c).Perm (s :: ring (unlinkSlab c s)) :=
    ((List.perm_cons_erase later).cons _).trans (List.Perm.swap _ _ _)
  have nodup := front.nodup_iff.mp ok.nodup
  have kept : ∀ t ∈ ring c, t ≠ s → t ∈ ring (unlinkSlab c s) := fun t member other =>
    (List.mem_cons.mp (front.mem_iff.mp member)).resolve_left other
  have slab := ok.slabs s listed
  have none_set : countSet (c.slab s).colors (c.slab s).colorCount = 0 := by
    have used := slab.used
    omega
  refine ⟨ok.positive, ⟨owned.blocks, owned.pages⟩, (List.nodup_cons.mp nodup).2, ?_, ?_,
    ok.used, ok.objects_nodup, ?_⟩
  · intro t member
    exact ok.slabs t (front.mem_iff.mpr (List.mem_cons_of_mem s member))
  · have total : c.totalFree =
        (c.slab s).freeCount + ((ring (unlinkSlab c s)).map fun t => (c.slab t).freeCount).sum :=
      ok.free.trans (front.map _).sum_nat
    have free := slab.free
    change c.totalFree - (c.slab s).colorCount =
      ((ring (unlinkSlab c s)).map fun t => (c.slab t).freeCount).sum
    omega
  · intro y member
    obtain ⟨t, k, object⟩ := ok.object y member
    have other : t ≠ s := by
      intro same
      subst same
      have positive := count_set_pos object.color object.taken
      omega
    exact ⟨t, k, kept t object.listed other, object.color, object.address, object.taken⟩

theorem count_set_zero (n : Nat) : countSet (fun _ => 0) n = 0 := by
  induction n with
  | zero => rfl
  | succ n ih =>
    rw [countSet, ih]
    simp [bit]

/- A slab that makeSlab has just made fits a cache without objects in its page. -/
theorem fresh_fits {size extra : Nat} {v : Slab}
    (fresh : FreshSlab a extra (pageSize / size) a' s v) (empty : liveIn objects v = 0) :
    SlabFits size extra objects v := by
  have clear : countSet v.colors v.colorCount = 0 := by
    rw [fresh.colors]
    exact count_set_zero _
  refine ⟨fresh.mapped, fresh.color_count, ?_, ?_, clear.trans empty.symm⟩
  · rw [clear, fresh.free_count, fresh.color_count, Nat.add_zero]
  · rw [clear, fresh.using_count, Nat.zero_add]

/- slab_create gets its own block first, and then no color map. -/
def FirstMapRefused (a : Account) (size : Nat) : Prop :=
  ∃ a₁ address, takeBlock a slabCacheBytes = some (a₁, some address) ∧
    MapRefused a₁ (pageSize / sizeofLongAlign size)

theorem create_ok {size : Nat} {made : Option Cache} (rule : PageRule boot otherPages Q)
    (spares : FirstMapRefused a size → Spares Q) (positive : 0 < size)
    (balanced : Balanced boot Q otherPages otherBlocks a) (blocks : a.blocks = [])
    (pages : a.pages = []) (call : slabCreate a size = some (a', made)) :
    Balanced boot Q otherPages otherBlocks a' ∧
      (made = none → a'.blocks = [] ∧ a'.pages = []) ∧
      ∀ c, made = some c → CacheOk a' c [] ∧ c.size = sizeofLongAlign size := by
  obtain ⟨⟨a₁, address⟩, first, call⟩ := Option.bind_eq_some_iff.mp call
  obtain ⟨balanced₁, pages₁, blocks₁⟩ := take_block_spec rule balanced first
  cases address with
  | none =>
    cases call
    exact ⟨balanced₁, fun _ => ⟨blocks₁.trans blocks, pages₁.trans pages⟩, nofun⟩
  | some address =>
    dsimp only at call
    obtain ⟨⟨a₂, slab⟩, second, call⟩ := Option.bind_eq_some_iff.mp call
    obtain ⟨balanced₂, undone, done⟩ :=
      make_slab_spec rule (fun refused => spares ⟨a₁, address, first, refused⟩) balanced₁ second
    have struct : a₁.blocks = [(address, slabCacheBytes)] := by
      rw [blocks₁, blocks]
      rfl
    cases slab with
    | none =>
      obtain ⟨blocks₂, pages₂⟩ := undone rfl
      have held : (address, slabCacheBytes) ∈ a₂.blocks := by
        rw [blocks₂, struct]
        exact List.mem_cons_self
      obtain ⟨a₃, given, balanced₃, pages₃, blocks₃⟩ := give_block_spec rule.drop balanced₂ held
      obtain ⟨a₃', given', call⟩ := Option.bind_eq_some_iff.mp call
      rw [given] at given'
      cases given'
      cases call
      refine ⟨balanced₃, fun _ => ⟨?_, ?_⟩, nofun⟩
      · rw [blocks₃, blocks₂, struct]
        exact List.erase_cons_head ..
      · rw [pages₃, pages₂, pages₁, pages]
    | some made =>
      obtain ⟨s, v⟩ := made
      cases call
      have fresh := done s v rfl
      refine ⟨balanced₂, nofun, fun c same => ?_⟩
      cases same
      have aligned : 0 < sizeofLongAlign size := by
        unfold sizeofLongAlign
        omega
      refine ⟨⟨aligned, ⟨?_, ?_⟩, List.nodup_singleton s, ?_, ?_, rfl,
        List.nodup_nil, nofun⟩, rfl⟩
      · rw [fresh.blocks, struct]
        change [(v.colorMap, v.colorLength), (s, slabBytes), (address, slabCacheBytes)].Perm
          [(address, slabCacheBytes), (s, slabBytes), (v.colorMap, v.colorLength)]
        exact (List.reverse_perm [(address, slabCacheBytes), (s, slabBytes), (v.colorMap, v.colorLength)])
      · rw [fresh.pages, pages₁, pages]
        exact List.Perm.refl _
      · intro t member
        have here : t = s := List.mem_singleton.mp member
        rw [surplus, if_pos here]
        exact fresh_fits fresh rfl
      · exact fresh.free_count.symm

theorem link_ok {v : Slab}
    (ok : CacheOk a c objects) (balanced' : Balanced boot Q otherPages otherBlocks a')
    (fresh : FreshSlab a 0 (pageSize / c.size) a' s v) : CacheOk a' (linkSlab c s v) objects := by
  have held : ∀ t ∈ ring c, (t, slabBytes) ∈ a.blocks := fun t member =>
    ok.owned.blocks.mem_iff.mpr (List.mem_cons_of_mem _
      (List.mem_flatMap.mpr ⟨t, member, List.mem_cons_self⟩))
  have absent : s ∉ ring c := by
    intro member
    have starts := balanced'.starts_nodup
    rw [fresh.blocks, List.map_cons, List.map_cons, List.nodup_cons, List.nodup_cons] at starts
    exact starts.2.1 (List.mem_map_of_mem (held s member))
  have other : ∀ t ∈ ring c, t ≠ s := fun t member same => absent (same ▸ member)
  have old : ∀ t ∈ ring c, (linkSlab c s v).slab t = c.slab t := fun t member =>
    Function.update_of_ne (other t member) ..
  have new : (linkSlab c s v).slab s = v := by
    change Function.update c.slab s v s = v
    rw [Function.update_self]
  have front : (ring (linkSlab c s v)).Perm (s :: ring c) := List.Perm.swap ..
  have apart : ∀ t ∈ ring c, (c.slab t).page ≠ v.page := by
    intro t member same
    have pages := balanced'.pages_nodup
    rw [fresh.pages, List.nodup_cons] at pages
    refine pages.1 (ok.owned.pages.mem_iff.mpr ?_)
    rw [← same]
    exact List.mem_map_of_mem member
  have empty : liveIn objects v = 0 := by
    refine List.countP_eq_zero.mpr fun x member inside => ?_
    obtain ⟨t, k, object⟩ := ok.object x member
    have there := holds_iff.mp (object_held ok object)
    have here := holds_iff.mp inside
    rw [(ok.slabs t object.listed).mapped] at there
    rw [fresh.mapped] at here
    exact apart t object.listed (held_page there.1 there.2 here.1 here.2)
  have later : s ≠ c.cachePool := fun same => absent (same ▸ List.mem_cons_self)
  refine ⟨ok.positive, owned_perm front.symm ⟨?_, ?_⟩, ?_, ?_, ?_, ok.used,
    ok.objects_nodup, ?_⟩
  · have same : (ring c).flatMap (blocksOf (linkSlab c s v)) = (ring c).flatMap (blocksOf c) :=
      List.flatMap_congr fun t member => by rw [blocksOf, blocksOf, old t member]
    have first : blocksOf (linkSlab c s v) s = [(s, slabBytes), (v.colorMap, v.colorLength)] := by
      rw [blocksOf, new]
    rw [fresh.blocks, List.flatMap_cons, same, first]
    refine (((ok.owned.blocks.cons _).cons _).trans (List.Perm.swap ..)).trans ?_
    exact ((List.Perm.swap ..).cons _).trans (List.Perm.swap ..)
  · have same : ((ring c).map fun t => ((linkSlab c s v).slab t).page) =
        (ring c).map fun t => (c.slab t).page :=
      List.map_congr_left fun t member => by rw [old t member]
    rw [fresh.pages, List.map_cons, same, new]
    exact ok.owned.pages.cons _
  · exact front.nodup_iff.mpr (List.nodup_cons.mpr ⟨absent, ok.nodup⟩)
  · intro t member
    rcases List.mem_cons.mp (front.mem_iff.mp member) with rfl | member
    · rw [new]
      have extra : surplus (linkSlab c t v) t = 0 := if_neg later
      rw [extra]
      exact fresh_fits fresh empty
    · rw [old t member]
      exact ok.slabs t member
  · have same : ((ring c).map fun t => ((linkSlab c s v).slab t).freeCount) =
        (ring c).map fun t => (c.slab t).freeCount :=
      List.map_congr_left fun t member => by rw [old t member]
    rw [(front.map _).sum_nat, List.map_cons, List.sum_cons, same, new, ← ok.free, fresh.free_count,
      Nat.add_comm, ← fresh.color_count]
    rfl
  · intro x member
    obtain ⟨t, k, object⟩ := ok.object x member
    have same := old t object.listed
    refine ⟨t, k, front.mem_iff.mpr (List.mem_cons_of_mem _ object.listed), ?_, ?_, ?_⟩ <;> rw [same]
    · exact object.color
    · exact object.address
    · exact object.taken

end SlabCache

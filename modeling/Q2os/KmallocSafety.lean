import Q2os.KmallocSlabs
import Q2os.Run

/- kmalloc and kfree keep the invariant of the heap, slab_init establishes it, and so the
   live blocks never overlap each other or the allocator's metadata. -/
namespace KmallocSafety
open Bitmap PageAllocator PageRuns Kmalloc KmallocPages HeapInvariant KmallocSlots KmallocSlabs Run

variable {boot : Nat → Prop} {pending : List Nat} {extra : List (Nat × Nat)} {h : Heap}

theorem bit_flip_first (m : Words) (n j : Nat) :
    bit (flipFirst m n) j = if j < n then !bit m j else bit m j := by
  induction n with
  | zero => simp [flipFirst]
  | succ n ih =>
    rw [flipFirst, bit_flipBit, ih]
    by_cases here : n = j
    · subst here
      simp
    · by_cases below : j < n
      · have small : j < n + 1 := by omega
        rw [if_neg here, if_pos below, if_pos small]
      · have large : ¬ j < n + 1 := by omega
        rw [if_neg here, if_neg below, if_neg large]

theorem fresh_colors_clear {count j : Nat} (small : j < count) :
    bit (freshColors count) j = false := by
  rw [freshColors, bit_flip_first, if_pos small]
  have inside : j % 64 < 64 := Nat.mod_lt _ (by decide)
  have one : bit (fun _ => BitVec.allOnes 64) j = true := by
    unfold bit
    rw [BitVec.getLsbD_allOnes]
    exact decide_eq_true inside
  rw [one]
  rfl

theorem first_free_mem (h : Heap) (pool : Nat) (slabs : List Nat) :
    firstFree h pool slabs = pool ∨ firstFree h pool slabs ∈ slabs := by
  induction slabs with
  | nil => exact Or.inl rfl
  | cons s rest ih =>
    unfold firstFree
    split
    · exact ih.imp_right (List.mem_cons_of_mem s)
    · exact Or.inr List.mem_cons_self

theorem first_free_listed (h : Heap) (i : Nat) : firstFree h (h.pool i) (ring h i) ∈ ring h i := by
  rcases first_free_mem h (h.pool i) (ring h i) with at_pool | listed
  · rw [at_pool]
    exact List.mem_cons_self
  · exact listed

theorem first_free_free {slabs : List Nat} {pool s : Nat} (member : s ∈ slabs)
    (free : (h.slab s).freeCount ≠ 0) : (h.slab (firstFree h pool slabs)).freeCount ≠ 0 := by
  induction slabs with
  | nil => cases member
  | cons t rest ih =>
    unfold firstFree
    by_cases full : (h.slab t).freeCount = 0
    · rw [if_pos full]
      refine ih ((List.mem_cons.mp member).resolve_left ?_)
      intro here
      exact free (here ▸ full)
    · rw [if_neg full]
      exact full

theorem sum_zero {f : Nat → Nat} {l : List Nat} (zero : ∀ s ∈ l, f s = 0) : (l.map f).sum = 0 := by
  induction l with
  | nil => rfl
  | cons s rest ih =>
    rw [List.map_cons, List.sum_cons, zero s List.mem_cons_self,
      ih fun t member => zero t (List.mem_cons_of_mem s member)]

theorem free_slab_found (inv : Inv boot pending extra h) {i : Nat} (hi : i < 16)
    (free : h.totalFree i ≠ 0) : (h.slab (firstFree h (h.pool i) (ring h i))).freeCount ≠ 0 := by
  by_contra none
  refine free ?_
  rw [(inv.totals i hi).free, sumOver]
  refine sum_zero fun s member => ?_
  by_contra some
  exact first_free_free member some none

theorem size_class_fits {size : Nat} (small : size ≤ 1048576) :
    sizeClass size < 16 ∧ size ≤ cacheSize (sizeClass size) := by
  unfold sizeClass
  cases found : (List.range 16).find? fun i => decide (size ≤ cacheSize i) with
  | none =>
    have last := List.find?_eq_none.mp found 15 (by decide)
    have biggest : cacheSize 15 = 1048576 := rfl
    rw [biggest] at last
    simp [small] at last
  | some i =>
    have fits := List.find?_some found
    have member := List.mem_of_find?_eq_some found
    exact ⟨List.mem_range.mp member, by simpa using fits⟩

theorem tail_pos (i : Nat) : 0 < tailBytes i := Nat.add_pos_left (by decide) _

theorem struct_page (inv : Inv boot pending extra h) {k t : Nat} (hk : k < 16)
    (listed : t ∈ ring h k) :
    boot (virtToPage t) ∨ ∃ l < 16, ∃ u ∈ ring h l, virtToPage t = (h.slab u).page := by
  rcases List.mem_cons.mp listed with rfl | later
  · exact Or.inl (inv.boot_struct k hk _ (within_start (by decide))).2
  · right
    by_cases small : k < 5
    · have place := inv.in_page k small t later
      have struct := place.struct
      have slots := place.slots
      have positive := tail_pos k
      have at_end : t = (h.slab t).vaddress + (pageSize - tailBytes k) := by omega
      refine ⟨k, hk, t, listed, ?_⟩
      rw [(inv.slab_ok k hk t listed).mapped] at at_end
      conv_lhs => rw [at_end]
      exact page_of_address (by omega)
    · obtain ⟨i, s, j, block⟩ :=
        inv.occupied _ (List.mem_append_right _ (meta_mem hk (by omega) later).1)
      exact ⟨i, block.cache, s, block.listed, (occupied_page
        (inv.slab_ok i block.cache s block.listed) block (within_start (cacheSize_pos i))).1⟩

theorem in_page_sizes : ∀ i < 5,
    let count := (pageSize - pageSize / cacheSize i / 8 - slabBytes) / cacheSize i
    count * cacheSize i + tailBytes i ≤ pageSize ∧
      colorLengthOf count ≤ pageSize / cacheSize i / 8 := by
  decide

theorem small_class {i : Nat} : cacheSize i ≤ 512 ↔ i < 5 := by
  constructor
  · intro small
    by_contra large
    have grows : cacheSize 5 ≤ cacheSize i := Nat.pow_le_pow_right (by decide) (by omega)
    have value : cacheSize 5 = 1024 := rfl
    omega
  · intro small
    have grows : cacheSize i ≤ cacheSize 4 := Nat.pow_le_pow_right (by decide) (by omega)
    have value : cacheSize 4 = 512 := rfl
    omega

theorem small_size_class {size : Nat} (small : size ≤ 512) : sizeClass size < 5 := by
  unfold sizeClass
  cases found : (List.range 16).find? fun i => decide (size ≤ cacheSize i) with
  | none =>
    have fourth := List.find?_eq_none.mp found 4 (by decide)
    have value : cacheSize 4 = 512 := rfl
    rw [value] at fourth
    simp [small] at fourth
  | some i =>
    obtain ⟨-, before⟩ := List.find?_eq_some_iff_append.mp found
    obtain ⟨xs, ys, parts, none_before⟩ := before
    by_contra large
    have place : i < 16 := List.mem_range.mp (by rw [parts]; simp)
    have inFront : 4 ∈ xs := by
      have at_index : (List.range 16)[xs.length]? = some i := by rw [parts]; simp
      obtain ⟨short, value⟩ := List.getElem?_eq_some_iff.mp at_index
      rw [List.getElem_range] at value
      have four : (List.range 16)[4]? = some 4 := by decide
      rw [parts, List.getElem?_append_left (by simp at large; omega)] at four
      exact List.mem_of_getElem? four
    have fits := none_before 4 inFront
    have value : cacheSize 4 = 512 := rfl
    rw [value] at fits
    simp [small] at fits

theorem color_length_small {count i : Nat} (large : 5 ≤ i) (slots : count * cacheSize i ≤ pageSize) :
    colorLengthOf count ≤ 512 := by
  have grows : cacheSize 5 ≤ cacheSize i := Nat.pow_le_pow_right (by decide) (by omega)
  have least := (Nat.mul_le_mul_left count grows).trans slots
  have value : cacheSize 5 = 1024 := rfl
  have page : pageSize = 2097152 := rfl
  rw [value, page] at least
  unfold colorLengthOf
  omega

theorem in_page_positive : ∀ {i : Nat}, i < 5 →
    (pageSize - pageSize / cacheSize i / 8 - slabBytes) / cacheSize i ≠ 0 := by
  decide

theorem create_in_page_inv {i page : Nat} (inv : Inv boot (page :: pending) extra h)
    (small : i < 5) :
    Inv boot pending extra
      (appendSlab (createInPage h i page).1 i (createInPage h i page).2) := by
  have address := inv.pending_mapped page List.mem_cons_self
  obtain ⟨slots, length⟩ := in_page_sizes i small
  have positive : slabBytes + pageSize / cacheSize i / 8 = tailBytes i := rfl
  have behind := tail_pos i
  unfold createInPage
  dsimp only
  rw [address, positive]
  have place : physToVirt (pageSize * page) + pageSize - tailBytes i =
      physToVirt (pageSize * page) + (pageSize - tailBytes i) := by
    omega
  have here : virtToPage (physToVirt (pageSize * page) + pageSize - tailBytes i) = page := by
    rw [place]
    exact page_of_address (by omega)
  refine append_slab_inv inv (by omega) rfl rfl rfl rfl rfl (fun j below => fresh_colors_clear below)
    ?_ ?_ ?_ ?_
  · dsimp only
    omega
  · rintro k hk t listed rfl
    rcases struct_page inv hk listed with set_aside | ⟨l, hl, u, hu, owner⟩
    · exact inv.apart page List.mem_cons_self (here ▸ set_aside)
    · exact (inv.reserved page (Or.inr List.mem_cons_self)).2 l hl u hu (owner.symm.trans here)
  · intro _
    refine ⟨?_, ?_, ?_, ?_⟩ <;> rw [slab_append_new]
    · dsimp only
      omega
    · exact length
    · exact slots
  · unfold metasNew
    rw [if_pos small]
    exact List.Perm.refl _

/- The blocks after a call of kmalloc that returned address. -/
def withBlock (extra : List (Nat × Nat)) (size : Nat) : Option Nat → List (Nat × Nat)
  | none => extra
  | some a => (a, size) :: extra

/-- What a call of kmalloc does to the blocks, if it returns; it returns NULL only for a size
that is too long or where alloc_pages has no page. -/
def AllocSpec (kmalloc : Heap → Nat → Option (Heap × Option Nat)) : Prop :=
  ∀ (boot : Nat → Prop) (pending : List Nat) (extra : List (Nat × Nat)) (h h' : Heap)
    (size : Nat) (address : Option Nat), Inv boot pending extra h →
    kmalloc h size = some (h', address) → Inv boot pending (withBlock extra size address) h' ∧
      (address = none → 1048576 < size ∨ (allocPages h.g zoneNormal 1).2 = none)

theorem count_positive {i : Nat} (hi : i < 16) : pageSize / cacheSize i ≠ 0 := by
  have fits : cacheSize i ≤ pageSize := Nat.pow_le_pow_right (by decide) (by omega)
  exact Nat.ne_of_gt (Nat.div_pos fits (cacheSize_pos i))

theorem create_outside_inv {kmalloc : Heap → Nat → Option (Heap × Option Nat)} {h' : Heap}
    {i page s : Nat} (nested : AllocSpec kmalloc) (inv : Inv boot (page :: pending) extra h)
    (hi : i < 16) (large : 5 ≤ i) (call : createOutside kmalloc h i page = some (h', s)) :
    Inv boot pending extra (appendSlab h' i s) ∧ (h'.slab s).freeCount ≠ 0 := by
  unfold createOutside at call
  cases first : kmalloc h slabBytes with
  | none => simp [first] at call
  | some r =>
    obtain ⟨h₁, a⟩ := r
    cases a with
    | none => simp [first] at call
    | some slab =>
      cases second : kmalloc h₁ (colorLengthOf (pageSize / cacheSize i)) with
      | none => simp [first, second] at call
      | some r =>
        obtain ⟨h₂, a⟩ := r
        cases a with
        | none => simp [first, second] at call
        | some map =>
          simp only [first, second, Option.some.injEq, Prod.mk.injEq] at call
          obtain ⟨rfl, rfl⟩ := call
          have inv₁ := (nested _ _ _ _ _ _ _ inv first).1
          have inv₂ := (nested _ _ _ _ _ _ _ inv₁ second).1
          have address := inv₂.pending_mapped page List.mem_cons_self
          have member : (slab, slabBytes) ∈ (map, colorLengthOf (pageSize / cacheSize i)) ::
              (slab, slabBytes) :: extra := List.mem_cons_of_mem _ List.mem_cons_self
          obtain ⟨k, t, l, block⟩ := inv₂.occupied _ (List.mem_append_left _ member)
          refine ⟨?_, by simpa [setSlab] using count_positive hi⟩
          refine append_slab_inv inv₂ hi rfl (by rw [address]) rfl rfl rfl
            (fun j below => fresh_colors_clear below) (Nat.div_mul_le_self _ _) ?_
            (fun small => absurd small (by omega)) ?_
          · rintro m hm u listed rfl
            have apart := (block_meta_apart inv₂ member block hm listed).1
            exact apart u ⟨within_start (cacheSize_pos k), within_start (show 0 < slabBytes by decide)⟩
          · unfold metasNew
            rw [if_neg (by omega)]
            exact List.Perm.swap _ _ _

/-- kmalloc meets its specification if the calls it makes to itself do. -/
theorem kmalloc_body_spec {kmalloc : Heap → Nat → Option (Heap × Option Nat)}
    (nested : AllocSpec kmalloc) : AllocSpec (kmallocBody kmalloc) := by
  intro boot pending extra h h' size address inv call
  unfold kmallocBody at call
  split at call
  · next long =>
    simp only [Option.some.injEq, Prod.mk.injEq] at call
    obtain ⟨rfl, rfl⟩ := call
    exact ⟨inv, fun _ => Or.inl long⟩
  · next small =>
    obtain ⟨inRange, fits⟩ := size_class_fits (Nat.le_of_not_lt small)
    revert call
    generalize sized : sizeClass size = i at inRange fits
    intro call
    dsimp only at call
    have finish : ∀ {g : Heap} {s : Nat} {P : Prop}, Inv boot pending extra g → s ∈ ring g i →
        (g.slab s).freeCount ≠ 0 → some (takeSlot g i s) = some (h', address) →
        Inv boot pending (withBlock extra size address) h' ∧ (address = none → P) := by
      intro g s P inv' listed free taken
      have spec := take_slot_inv inv' inRange listed fits sized
      obtain ⟨a, given⟩ := take_slot_some (inv'.slab_ok i inRange s listed) free
      rw [Option.some.inj taken] at spec given
      subst given
      exact ⟨spec, fun null => by cases null⟩
    split at call
    · next free =>
      exact finish inv (first_free_listed h i) (free_slab_found inv inRange free) call
    · unfold kmallocCreate at call
      generalize page_call : allocPages h.g zoneNormal 1 = r at call
      cases r with
      | mk g page =>
        cases page with
        | none =>
          simp only [Option.some.injEq, Prod.mk.injEq] at call
          obtain ⟨rfl, rfl⟩ := call
          exact ⟨inv, fun _ => Or.inr rfl⟩
        | some page =>
          have held := request_page_inv inv page_call pgKernel
          dsimp only at call
          by_cases inPage : cacheSize i ≤ 512
          · rw [if_pos inPage] at call
            have made := create_in_page_inv held (small_class.mp inPage)
            refine finish made (mem_ring_append.mpr (Or.inr ⟨rfl, rfl⟩)) ?_ call
            exact slab_append_new ▸ in_page_positive (small_class.mp inPage)
          · rw [if_neg inPage] at call
            cases outside : createOutside kmalloc { h with g := pageInit g page pgKernel } i page with
            | none => simp [outside] at call
            | some r =>
              obtain ⟨h₁, s⟩ := r
              rw [outside] at call
              have large : 5 ≤ i := Nat.le_of_not_lt fun below => inPage (small_class.mpr below)
              obtain ⟨made, free⟩ := create_outside_inv nested held inRange large outside
              refine finish made ?_ free call
              refine List.mem_cons_of_mem _ ?_
              simp [appendSlab]

theorem kmalloc_spec : AllocSpec kmalloc := by
  have none_spec : AllocSpec (kmallocDepth 0) := by
    intro boot pending extra h h' size address inv call
    cases call
  exact kmalloc_body_spec (kmalloc_body_spec none_spec)

/- kfree -/

theorem find_slab_some {base left first i s : Nat} (found : findSlab h base left first = some (i, s)) :
    i < first + left ∧ s ∈ ring h i ∧ (h.slab s).vaddress = base := by
  induction left generalizing first with
  | zero => cases found
  | succ left ih =>
    unfold findSlab at found
    split at found
    · next t here =>
      cases found
      have right := List.find?_some here
      exact ⟨by omega, List.mem_of_find?_eq_some here, by simpa using right⟩
    · obtain ⟨small, rest⟩ := ih found
      exact ⟨by omega, rest⟩

theorem find_slab_none {base left first i s : Nat} (missed : findSlab h base left first = none)
    (low : first ≤ i) (high : i < first + left) (listed : s ∈ ring h i) :
    (h.slab s).vaddress ≠ base := by
  induction left generalizing first with
  | zero => omega
  | succ left ih =>
    unfold findSlab at missed
    split at missed
    · cases missed
    · next here =>
      by_cases same : i = first
      · subst same
        have other := List.find?_eq_none.mp here s listed
        simpa using other
      · exact ih missed (by omega) (by omega)

theorem find_slab_block {e : Nat × Nat} {i s j : Nat} (inv : Inv boot pending extra h)
    (block : Occupied h e i s j) : findSlab h (e.1 / pageSize * pageSize) 16 0 = some (i, s) := by
  have ok := inv.slab_ok i block.cache s block.listed
  have base : e.1 / pageSize * pageSize = (h.slab s).vaddress := by
    have last := slot_end (i := i) block.slot
    have slots := ok.slots
    have positive := cacheSize_pos i
    rw [block.address, ok.mapped]
    exact base_of_address (by omega)
  rw [base]
  cases found : findSlab h (h.slab s).vaddress 16 0 with
  | none =>
    exact absurd rfl (find_slab_none found (Nat.zero_le i) (by have := block.cache; omega) block.listed)
  | some r =>
    obtain ⟨k, t⟩ := r
    obtain ⟨small, listed, same⟩ := find_slab_some found
    have hk : k < 16 := by omega
    rw [(inv.slab_ok k hk t listed).mapped, ok.mapped] at same
    have pages : (h.slab t).page = (h.slab s).page := by
      have cancel := Nat.add_right_cancel same
      exact Nat.eq_of_mul_eq_mul_left (by decide) cancel
    obtain ⟨rfl, rfl⟩ := inv.own k hk i block.cache t listed s block.listed pages
    rfl

theorem inv_perm {blocks : List (Nat × Nat)} (same : blocks.Perm extra)
    (inv : Inv boot pending extra h) : Inv boot pending blocks h :=
  { inv with
    occupied := fun e member => inv.occupied e ((same.append_right (metas h)).mem_iff.mp member)
    distinct := (((same.append_right (metas h)).map Prod.fst).nodup_iff).mpr inv.distinct }

/-- A call of kfree with the address of a block returns and gives the block back. -/
def FreeSpec (limit : Nat) (kfree : Heap → Nat → Option (Heap × Nat)) : Prop :=
  ∀ (boot : Nat → Prop) (pending : List Nat) (e : Nat × Nat) (extra : List (Nat × Nat))
    (h : Heap), e.2 ≤ limit → Inv boot pending (e :: extra) h →
    ∃ h' r, kfree h e.1 = some (h', r) ∧ Inv boot pending extra h'

theorem drop_slab_inv {kfree : Heap → Nat → Option (Heap × Nat)} {i s : Nat}
    (nested : 5 ≤ i → FreeSpec 512 kfree) (length : 5 ≤ i → (h.slab s).colorLength ≤ 512)
    (inv : Inv boot ((h.slab s).page :: pending) (metasNew i s (h.slab s) ++ extra) h) :
    ∃ h', dropSlab kfree h i s = some h' ∧ Inv boot pending extra h' := by
  unfold dropSlab metasNew at *
  dsimp only
  by_cases small : i < 5
  · rw [if_pos (small_class.mpr small)]
    rw [if_pos small] at inv
    exact ⟨_, rfl, return_page_inv inv⟩
  · have large : 5 ≤ i := Nat.le_of_not_lt small
    rw [if_neg (fun fits => small (small_class.mp fits))]
    rw [if_neg small] at inv
    have swapped := inv_perm (List.Perm.swap _ _ _) inv
    obtain ⟨h₁, r₁, first, inv₁⟩ := nested large _ _ _ _ _ (length large) swapped
    have inv₂ := return_page_inv inv₁
    obtain ⟨h₂, r₂, second, inv₃⟩ :=
      nested large _ _ (s, slabBytes) _ _ (show slabBytes ≤ 512 by decide) inv₂
    dsimp only at first second
    rw [first]
    dsimp only
    rw [second]
    exact ⟨_, rfl, inv₃⟩

/-- kfree meets its specification if the calls it makes to itself do; for the classes up to
512 it makes none. -/
theorem kfree_body_spec {limit : Nat} {kfree : Heap → Nat → Option (Heap × Nat)}
    (nested : 512 < limit → FreeSpec 512 kfree) : FreeSpec limit (kfreeBody kfree) := by
  intro boot pending e extra h inLimit inv
  obtain ⟨i, s, j, block⟩ := inv.occupied e (List.mem_append_left _ List.mem_cons_self)
  have released := release_slot_inv inv block
  unfold kfreeBody
  rw [find_slab_block inv block]
  dsimp only
  split
  · next empty =>
    have later : s ∈ (releaseSlot h i s e.1).others i := by
      rcases List.mem_cons.mp block.listed with at_pool | later
      · exact absurd at_pool.symm empty.2.2
      · exact later
    have ok := released.slab_ok i block.cache s (List.mem_cons_of_mem _ later)
    have unlinked := unlink_slab_inv released block.cache later empty.1
    have deeper : 5 ≤ i → FreeSpec 512 kfree := by
      intro large
      refine nested (Nat.lt_of_not_le fun small => ?_)
      have inPage := small_size_class (Nat.le_trans inLimit small)
      have sized := block.sized
      omega
    have length : 5 ≤ i → ((unlinkSlab (releaseSlot h i s e.1) i s).slab s).colorLength ≤ 512 :=
      fun large => le_of_eq_of_le ok.length (color_length_small large ok.slots)
    obtain ⟨h', dropped, inv'⟩ := drop_slab_inv deeper length unlinked
    rw [dropped]
    exact ⟨h', 1, rfl, inv'⟩
  · exact ⟨_, 1, rfl, released⟩

theorem kfree_spec (limit : Nat) : FreeSpec limit kfree :=
  kfree_body_spec fun _ => kfree_body_spec fun deeper => absurd deeper (by decide)

/- The depth of the calls is enough: the metadata of a slab is in the classes up to 512. -/

theorem kmalloc_body_congr {f g : Heap → Nat → Option (Heap × Option Nat)}
    (same : ∀ h, ∀ size ≤ 512, f h size = g h size) : kmallocBody f = kmallocBody g := by
  have outside : ∀ h page i, 5 ≤ i → createOutside f h i page = createOutside g h i page := by
    intro h page i large
    have maps : ∀ h, f h (colorLengthOf (pageSize / cacheSize i)) =
        g h (colorLengthOf (pageSize / cacheSize i)) :=
      fun h => same h _ (color_length_small large (Nat.div_mul_le_self _ _))
    unfold createOutside
    rw [same h slabBytes (by decide)]
    simp only [maps]
  funext h size
  unfold kmallocBody kmallocCreate
  by_cases inPage : cacheSize (sizeClass size) ≤ 512
  · simp only [if_pos inPage]
  · have large : 5 ≤ sizeClass size := Nat.le_of_not_lt fun below => inPage (small_class.mpr below)
    simp only [outside _ _ _ large]

theorem kmalloc_small {f g : Heap → Nat → Option (Heap × Option Nat)} {h : Heap} {size : Nat}
    (small : size ≤ 512) : kmallocBody f h size = kmallocBody g h size := by
  have inPage := small_class.mpr (small_size_class small)
  unfold kmallocBody kmallocCreate
  simp only [if_pos inPage]

/-- Two levels of kmalloc are all there are. -/
theorem kmalloc_depth (d : Nat) : kmallocDepth (d + 2) = kmalloc :=
  kmalloc_body_congr fun _ _ small => kmalloc_small small

end KmallocSafety

import Q2os.HeapInvariant

/- Taking a slot of a listed slab and giving one back. -/
namespace KmallocSlots
open Bitmap PageAllocator PageRuns Kmalloc KmallocPages HeapInvariant

variable {boot : Nat → Prop} {pending : List Nat} {extra : List (Nat × Nat)} {h h' : Heap}

/-- Only colors and counters differ. -/
structure SameShape (h h' : Heap) : Prop where
  g : h'.g = h.g
  pool : h'.pool = h.pool
  others : h'.others = h.others
  page : ∀ t, (h'.slab t).page = (h.slab t).page
  vaddress : ∀ t, (h'.slab t).vaddress = (h.slab t).vaddress
  colorLength : ∀ t, (h'.slab t).colorLength = (h.slab t).colorLength
  colorCount : ∀ t, (h'.slab t).colorCount = (h.slab t).colorCount
  colorMap : ∀ t, (h'.slab t).colorMap = (h.slab t).colorMap

theorem same_shape_ring (same : SameShape h h') (i : Nat) : ring h' i = ring h i := by
  rw [ring, ring, same.pool, same.others]

theorem same_shape_metas (same : SameShape h h') : metas h' = metas h := by
  unfold metas
  congr 1
  funext i
  unfold metasOf
  simp only [same.others, same.colorMap, same.colorLength]

/- The parts of the invariant that such a change can break. -/
theorem inv_of_same_shape {extra' : List (Nat × Nat)} (same : SameShape h h')
    (inv : Inv boot pending extra h)
    (counts : ∀ i < 16, ∀ s ∈ ring h i,
      (h'.slab s).usingCount = countSet (h'.slab s).colors (h.slab s).colorCount ∧
      (h'.slab s).freeCount + (h'.slab s).usingCount = (h.slab s).colorCount)
    (occupied : ∀ e ∈ extra' ++ metas h, ∃ i s j, Occupied h' e i s j)
    (distinct : ((extra' ++ metas h).map Prod.fst).Nodup)
    (totals : ∀ i < 16, Totals h' i) : Inv boot pending extra' h' where
  pages := same.g ▸ inv.pages
  ring_nodup i hi := same_shape_ring same i ▸ inv.ring_nodup i hi
  own i hi k hk s hs t ht := by
    rw [same_shape_ring same] at hs ht
    rw [same.page, same.page]
    exact inv.own i hi k hk s hs t ht
  slab_ok i hi s hs := by
    rw [same_shape_ring same] at hs
    have ok := inv.slab_ok i hi s hs
    refine ⟨?_, ?_, ?_, ?_, ?_, ?_⟩
    · rw [same.g, same.page]; exact ok.marked
    · rw [same.vaddress, same.page]; exact ok.mapped
    · rw [same.colorCount]; exact ok.slots
    · rw [same.colorCount]; exact (counts i hi s hs).1
    · rw [same.colorCount]; exact (counts i hi s hs).2
    · rw [same.colorLength, same.colorCount]; exact ok.length
  reserved p held := by
    obtain ⟨marked, foreign⟩ := inv.reserved p held
    refine ⟨same.g ▸ marked, ?_⟩
    intro i hi s hs
    rw [same_shape_ring same] at hs
    rw [same.page]
    exact foreign i hi s hs
  apart := inv.apart
  pending_nodup := inv.pending_nodup
  pending_mapped p held := same.g ▸ inv.pending_mapped p held
  boot_struct i hi := same.pool ▸ inv.boot_struct i hi
  boot_map i hi := by
    rw [same.pool, same.colorMap, same.colorLength]
    exact inv.boot_map i hi
  in_page i hi s hs := by
    rw [same.others] at hs
    have place := inv.in_page i hi s hs
    refine ⟨?_, ?_, ?_, ?_⟩
    · rw [same.vaddress]; exact place.struct
    · rw [same.colorMap]; exact place.map
    · rw [same.colorLength]; exact place.mapLength
    · rw [same.colorCount]; exact place.slots
  later_mapped i hi s hs := by
    rw [same.others] at hs
    rw [same.g, same.page]
    exact inv.later_mapped i hi s hs
  occupied := by rw [same_shape_metas same]; exact occupied
  distinct := by rw [same_shape_metas same]; exact distinct
  totals := totals

theorem sum_change {f g : Nat → Nat} {s : Nat} {l : List Nat} (nodup : l.Nodup) (member : s ∈ l)
    (same : ∀ t, t ≠ s → g t = f t) : (l.map g).sum + f s = (l.map f).sum + g s := by
  induction l with
  | nil => cases member
  | cons t rest ih =>
    obtain ⟨absent, nodup⟩ := List.nodup_cons.mp nodup
    rw [List.map_cons, List.map_cons, List.sum_cons, List.sum_cons]
    by_cases here : t = s
    · subst here
      have equal : rest.map g = rest.map f := by
        apply List.map_congr_left
        intro u later
        exact same u fun at_s => absent (at_s ▸ later)
      rw [equal]
      omega
    · have later := ih nodup ((List.mem_cons.mp member).resolve_left (Ne.symm here))
      rw [same t here]
      omega

theorem sum_same {f g : Nat → Nat} {s : Nat} {l : List Nat} (absent : s ∉ l)
    (same : ∀ t, t ≠ s → g t = f t) : (l.map g).sum = (l.map f).sum := by
  congr 1
  apply List.map_congr_left
  intro u member
  exact same u fun at_s => absent (at_s ▸ member)

theorem count_le_total {i s : Nat} (inv : Inv boot pending extra h) (hi : i < 16)
    (hs : s ∈ ring h i) (f : Slab → Nat) : f (h.slab s) ≤ sumOver f h i := by
  have change := sum_change (f := fun u => f (h.slab u))
    (g := fun u => if u = s then 0 else f (h.slab u)) (inv.ring_nodup i hi) hs
    fun u away => if_neg away
  rw [if_pos rfl] at change
  unfold sumOver
  omega

/- The counters of a cache follow those of the one slab that changes. -/
theorem totals_of_store {i s free used : Nat} (inv : Inv boot pending extra h)
    (same : SameShape h h') (other : ∀ u, u ≠ s → h'.slab u = h.slab u) (hi : i < 16)
    (hs : s ∈ ring h i) (totalFree : h'.totalFree = Function.update h.totalFree i free)
    (totalUsing : h'.totalUsing = Function.update h.totalUsing i used)
    (free_step : free + (h.slab s).freeCount = h.totalFree i + (h'.slab s).freeCount)
    (used_step : used + (h.slab s).usingCount = h.totalUsing i + (h'.slab s).usingCount) :
    ∀ k < 16, Totals h' k := by
  intro k hk
  have before := inv.totals k hk
  have free_sum := before.free
  have used_sum := before.used
  by_cases here : k = i
  · subst here
    have free_change := sum_change (f := fun u => (h.slab u).freeCount)
      (g := fun u => (h'.slab u).freeCount) (inv.ring_nodup k hk) hs fun u away => by rw [other u away]
    have used_change := sum_change (f := fun u => (h.slab u).usingCount)
      (g := fun u => (h'.slab u).usingCount) (inv.ring_nodup k hk) hs fun u away => by rw [other u away]
    unfold sumOver at free_sum used_sum
    constructor
    · rw [totalFree, Function.update_self, sumOver, same_shape_ring same]
      omega
    · rw [totalUsing, Function.update_self, sumOver, same_shape_ring same]
      omega
  · have absent : s ∉ ring h k := by
      intro listed
      exact here (inv.own k hk i hi s listed s hs rfl).1
    constructor
    · rw [totalFree, Function.update_of_ne here, free_sum, sumOver, sumOver, same_shape_ring same]
      exact (sum_same absent fun u away => by rw [other u away]).symm
    · rw [totalUsing, Function.update_of_ne here, used_sum, sumOver, sumOver, same_shape_ring same]
      exact (sum_same absent fun u away => by rw [other u away]).symm

theorem count_set_congr {m m' : Words} {n : Nat} (same : ∀ j < n, bit m' j = bit m j) :
    countSet m' n = countSet m n := by
  induction n with
  | zero => rfl
  | succ n ih =>
    rw [countSet, countSet, ih (fun j small => same j (by omega)), same n (by omega)]

theorem count_set_set {m m' : Words} {n j : Nat} (inside : j < n) (clear : bit m j = false)
    (taken : bit m' j = true) (same : ∀ k, k ≠ j → bit m' k = bit m k) :
    countSet m' n = countSet m n + 1 := by
  induction n with
  | zero => omega
  | succ n ih =>
    by_cases here : n = j
    · subst here
      have below : countSet m' n = countSet m n :=
        count_set_congr fun k small => same k (by omega)
      rw [countSet, countSet, below, taken, clear]
      simp
    · rw [countSet, countSet, ih (by omega), same n here]
      omega

theorem count_set_le (m : Words) (n : Nat) : countSet m n ≤ n := by
  induction n with
  | zero => exact Nat.le_refl 0
  | succ n ih =>
    rw [countSet]
    split <;> omega

theorem count_set_pos {m : Words} {n j : Nat} (inside : j < n) (taken : bit m j = true) :
    0 < countSet m n := by
  induction n with
  | zero => omega
  | succ n ih =>
    rw [countSet]
    by_cases here : n = j
    · rw [here, taken]
      simp
    · have rest := ih (by omega)
      omega

theorem search_color_some {m : Words} {count j : Nat} : ∀ {fuel from' : Nat},
    searchColor m count fuel from' = some j → j < count ∧ bit m j = false := by
  intro fuel
  induction fuel with
  | zero => intro from' found; cases found
  | succ fuel ih =>
    intro from' found
    unfold searchColor at found
    split at found
    · next below =>
      split at found
      · exact ih found
      · split at found
        · next clear =>
          cases found
          exact ⟨below, clear⟩
        · exact ih found
    · cases found

/- Skipping a full word passes over no clear bit: inside a word the search only moves on while
   the word is not full. -/
theorem search_color_none {m : Words} {count : Nat} {fuel j : Nat} (enough : count ≤ j + fuel)
    (aligned : j % 64 = 0 ∨ m (j / 64) ≠ BitVec.allOnes 64)
    (missed : searchColor m count fuel j = none) : ∀ k, j ≤ k → k < count → bit m k = true := by
  induction fuel generalizing j with
  | zero =>
    intro k low high
    omega
  | succ fuel ih =>
    intro k low high
    unfold searchColor at missed
    rw [if_pos (by omega)] at missed
    by_cases full : m (j / 64) = BitVec.allOnes 64
    · rw [if_pos full] at missed
      have start := aligned.resolve_right (fun other => other full)
      by_cases inWord : k < j + 64
      · have word : k / 64 = j / 64 := by omega
        unfold bit
        rw [word, full, BitVec.getLsbD_allOnes]
        exact decide_eq_true (Nat.mod_lt k (by decide))
      · exact ih (by omega) (Or.inl (by omega)) missed k (by omega) high
    · rw [if_neg full] at missed
      split at missed
      · cases missed
      · next set =>
        by_cases here : k = j
        · subst here
          simpa using set
        · refine ih (by omega) ?_ missed k (by omega) high
          by_cases next : (j + 1) % 64 = 0
          · exact Or.inl next
          · have word : (j + 1) / 64 = j / 64 := by omega
            exact Or.inr (word ▸ full)

theorem count_set_full {m : Words} {n : Nat} (full : ∀ k < n, bit m k = true) : countSet m n = n := by
  induction n with
  | zero => rfl
  | succ n ih => rw [countSet, ih fun k small => full k (by omega), full n (by omega), if_pos rfl]

/-- A slab with a free slot has one to give. -/
theorem take_slot_some {i s : Nat} (ok : SlabOk h i s) (free : (h.slab s).freeCount ≠ 0) :
    ∃ a, (takeSlot h i s).2 = some a := by
  unfold takeSlot
  dsimp only
  cases found : searchColor (h.slab s).colors (h.slab s).colorCount (h.slab s).colorCount 0 with
  | some j => exact ⟨_, rfl⟩
  | none =>
    have all := search_color_none (by omega) (Or.inl rfl) found
    have full := count_set_full fun k small => all k (Nat.zero_le k) small
    have used := ok.using_count
    have balance := ok.free_count
    omega

theorem take_slot_cases (h : Heap) (i s : Nat) :
    takeSlot h i s = (h, none) ∨
      ∃ j, j < (h.slab s).colorCount ∧ bit (h.slab s).colors j = false ∧
        (takeSlot h i s).2 = some ((h.slab s).vaddress + cacheSize i * j) ∧
        (takeSlot h i s).1 = { setSlab h s { h.slab s with
            colors := setBit (h.slab s).colors j, usingCount := (h.slab s).usingCount + 1,
            freeCount := (h.slab s).freeCount - 1 } with
          totalFree := Function.update h.totalFree i (h.totalFree i - 1)
          totalUsing := Function.update h.totalUsing i (h.totalUsing i + 1) } := by
  unfold takeSlot
  dsimp only
  cases found : searchColor (h.slab s).colors (h.slab s).colorCount (h.slab s).colorCount 0 with
  | none => exact Or.inl rfl
  | some j =>
    obtain ⟨inside, clear⟩ := search_color_some found
    exact Or.inr ⟨j, inside, clear, rfl, rfl⟩

theorem color_store_shape (h : Heap) (s : Nat) (colors : Words) (used free : Nat)
    (totalFree totalUsing : Nat → Nat) :
    SameShape h { setSlab h s { h.slab s with
        colors := colors, usingCount := used, freeCount := free } with
      totalFree := totalFree, totalUsing := totalUsing } := by
  have field : ∀ {β : Type} (f : Slab → β), (∀ v, f { v with
      colors := colors, usingCount := used, freeCount := free } = f v) → ∀ t,
      f (Function.update h.slab s { h.slab s with
        colors := colors, usingCount := used, freeCount := free } t) = f (h.slab t) := by
    intro β f keeps t
    by_cases here : t = s
    · rw [here, Function.update_self, keeps]
    · rw [Function.update_of_ne here]
  exact ⟨rfl, rfl, rfl, field Slab.page (fun _ => rfl), field Slab.vaddress (fun _ => rfl),
    field Slab.colorLength (fun _ => rfl), field Slab.colorCount (fun _ => rfl),
    field Slab.colorMap (fun _ => rfl)⟩

/- Blocks keep their slots when the colors of s change elsewhere. -/
theorem occupied_of_store {e : Nat × Nat} {k t l s : Nat} (same : SameShape h h')
    (other : ∀ u, u ≠ s → h'.slab u = h.slab u) (occupied : Occupied h e k t l)
    (kept : t = s → bit (h'.slab s).colors l = bit (h.slab s).colors l) :
    Occupied h' e k t l where
  cache := occupied.cache
  listed := same_shape_ring same k ▸ occupied.listed
  slot := same.colorCount t ▸ occupied.slot
  address := same.vaddress t ▸ occupied.address
  fits := occupied.fits
  sized := occupied.sized
  taken := by
    by_cases here : t = s
    · subst here
      rw [kept rfl]
      exact occupied.taken
    · rw [other t here]
      exact occupied.taken

/-- Taking a slot adds a block. -/
theorem take_slot_inv (inv : Inv boot pending extra h) {i s n : Nat} (hi : i < 16)
    (hs : s ∈ ring h i) (fits : n ≤ cacheSize i) (sized : sizeClass n = i) :
    match (takeSlot h i s).2 with
    | none => Inv boot pending extra (takeSlot h i s).1
    | some a => Inv boot pending ((a, n) :: extra) (takeSlot h i s).1 := by
  rcases take_slot_cases h i s with nothing | ⟨j, inside, clear, returned, after⟩
  · rw [nothing]
    exact inv
  · rw [returned, after]
    dsimp only
    have shape := color_store_shape h s (setBit (h.slab s).colors j)
      ((h.slab s).usingCount + 1) ((h.slab s).freeCount - 1)
      (Function.update h.totalFree i (h.totalFree i - 1))
      (Function.update h.totalUsing i (h.totalUsing i + 1))
    revert shape
    generalize made : ({ setSlab h s { h.slab s with
        colors := setBit (h.slab s).colors j, usingCount := (h.slab s).usingCount + 1,
        freeCount := (h.slab s).freeCount - 1 } with
      totalFree := Function.update h.totalFree i (h.totalFree i - 1)
      totalUsing := Function.update h.totalUsing i (h.totalUsing i + 1) } : Heap) = h'
    intro shape
    have here : h'.slab s = { h.slab s with
        colors := setBit (h.slab s).colors j, usingCount := (h.slab s).usingCount + 1,
        freeCount := (h.slab s).freeCount - 1 } := by
      rw [← made]
      exact Function.update_self ..
    have elsewhere : ∀ u, u ≠ s → h'.slab u = h.slab u := by
      intro u other
      rw [← made]
      exact Function.update_of_ne other _ _
    have colors : ∀ k, bit (h'.slab s).colors k = if j = k then true else bit (h.slab s).colors k := by
      intro k
      rw [here]
      exact bit_setBit _ _ _
    have ok := inv.slab_ok i hi s hs
    have grown : countSet (h'.slab s).colors (h.slab s).colorCount =
        countSet (h.slab s).colors (h.slab s).colorCount + 1 := by
      refine count_set_set inside clear ?_ ?_
      · rw [colors, if_pos rfl]
      · intro k other
        rw [colors, if_neg (Ne.symm other)]
    have bound := count_set_le (h'.slab s).colors (h.slab s).colorCount
    have used := ok.using_count
    have balance := ok.free_count
    refine inv_of_same_shape shape inv ?_ ?_ ?_ ?_
    · intro k hk t ht
      by_cases same : t = s
      · subst same
        rw [grown] at bound ⊢
        rw [here]
        dsimp only
        omega
      · rw [elsewhere t same]
        have ok := inv.slab_ok k hk t ht
        exact ⟨ok.using_count, ok.free_count⟩
    · intro e member
      rcases List.mem_cons.mp member with rfl | old
      · refine ⟨i, s, j, hi, same_shape_ring shape i ▸ hs, shape.colorCount s ▸ inside, ?_, fits,
          sized, ?_⟩
        · rw [shape.vaddress]
        · rw [colors, if_pos rfl]
      · obtain ⟨k, t, l, occupied⟩ := inv.occupied e old
        refine ⟨k, t, l, occupied_of_store shape elsewhere occupied ?_⟩
        rintro rfl
        rw [colors]
        by_cases same : j = l
        · subst same
          rw [if_pos rfl, occupied.taken]
        · rw [if_neg same]
    · rw [List.cons_append, List.map_cons]
      exact List.nodup_cons.mpr ⟨clear_slot_fresh inv hi hs inside clear, inv.distinct⟩
    · have counted := count_le_total inv hi hs Slab.freeCount
      rw [← (inv.totals i hi).free] at counted
      refine totals_of_store inv shape elsewhere hi hs (by rw [← made]) (by rw [← made])
        ?_ ?_
      · rw [here]
        dsimp only
        omega
      · rw [here]
        dsimp only
        omega

/- Giving a block back. -/

theorem slot_index {i s j : Nat} {e : Nat × Nat} (occupied : Occupied h e i s j) :
    (e.1 - (h.slab s).vaddress) / cacheSize i = j := by
  rw [occupied.address, Nat.add_sub_cancel_left]
  exact Nat.mul_div_cancel_left j (cacheSize_pos i)

theorem release_slot_eq {e : Nat × Nat} {i s j : Nat} (occupied : Occupied h e i s j) :
    releaseSlot h i s e.1 = { setSlab h s { h.slab s with
        colors := flipBit (h.slab s).colors j, usingCount := (h.slab s).usingCount - 1,
        freeCount := (h.slab s).freeCount + 1 } with
      totalFree := Function.update h.totalFree i (h.totalFree i + 1)
      totalUsing := Function.update h.totalUsing i (h.totalUsing i - 1) } := by
  unfold releaseSlot
  dsimp only
  rw [slot_index occupied]
  rfl

theorem release_slot_inv {e : Nat × Nat} {i s j : Nat} (inv : Inv boot pending (e :: extra) h)
    (occupied : Occupied h e i s j) : Inv boot pending extra (releaseSlot h i s e.1) := by
  rw [release_slot_eq occupied]
  have shape := color_store_shape h s (flipBit (h.slab s).colors j) ((h.slab s).usingCount - 1)
    ((h.slab s).freeCount + 1) (Function.update h.totalFree i (h.totalFree i + 1))
    (Function.update h.totalUsing i (h.totalUsing i - 1))
  revert shape
  generalize made : ({ setSlab h s { h.slab s with
      colors := flipBit (h.slab s).colors j, usingCount := (h.slab s).usingCount - 1,
      freeCount := (h.slab s).freeCount + 1 } with
    totalFree := Function.update h.totalFree i (h.totalFree i + 1)
    totalUsing := Function.update h.totalUsing i (h.totalUsing i - 1) } : Heap) = h'
  intro shape
  have here : h'.slab s = { h.slab s with
      colors := flipBit (h.slab s).colors j, usingCount := (h.slab s).usingCount - 1,
      freeCount := (h.slab s).freeCount + 1 } := by
    rw [← made]
    exact Function.update_self ..
  have elsewhere : ∀ u, u ≠ s → h'.slab u = h.slab u := by
    intro u other
    rw [← made]
    exact Function.update_of_ne other _ _
  have colors : ∀ k, bit (h'.slab s).colors k =
      if j = k then !bit (h.slab s).colors k else bit (h.slab s).colors k := by
    intro k
    rw [here]
    exact bit_flipBit _ _ _
  have distinct := inv.distinct
  rw [List.cons_append, List.map_cons, List.nodup_cons] at distinct
  have ok := inv.slab_ok i occupied.cache s occupied.listed
  have shrunk : countSet (h.slab s).colors (h.slab s).colorCount =
      countSet (h'.slab s).colors (h.slab s).colorCount + 1 := by
    refine count_set_set occupied.slot ?_ occupied.taken ?_
    · rw [colors, if_pos rfl, occupied.taken]
      rfl
    · intro k other
      rw [colors, if_neg (Ne.symm other)]
  have used := ok.using_count
  have balance := ok.free_count
  refine inv_of_same_shape shape inv ?_ ?_ distinct.2 ?_
  · intro k hk t ht
    by_cases same : t = s
    · subst same
      rw [here]
      dsimp only
      rw [here] at shrunk
      dsimp only at shrunk
      omega
    · rw [elsewhere t same]
      have ok := inv.slab_ok k hk t ht
      exact ⟨ok.using_count, ok.free_count⟩
  · intro f member
    obtain ⟨k, t, l, block⟩ := inv.occupied f (List.mem_cons_of_mem e member)
    refine ⟨k, t, l, occupied_of_store shape elsewhere block ?_⟩
    rintro rfl
    rw [colors]
    by_cases same : j = l
    · subst same
      obtain ⟨rfl, -⟩ := inv.own k block.cache i occupied.cache t block.listed t
        occupied.listed rfl
      have twice : e.1 = f.1 := occupied.address.trans block.address.symm
      exact absurd (twice ▸ List.mem_map_of_mem member) distinct.1
    · rw [if_neg same]
  · have counted := count_le_total inv occupied.cache occupied.listed Slab.usingCount
    rw [← (inv.totals i occupied.cache).used] at counted
    refine totals_of_store inv shape elsewhere occupied.cache occupied.listed
      (by rw [← made]) (by rw [← made]) ?_ ?_
    · rw [here]
      dsimp only
      omega
    · rw [here]
      dsimp only
      omega

theorem empty_slab_free {e : Nat × Nat} {i s j k : Nat} (inv : Inv boot pending extra h)
    (hk : k < 16) (hs : s ∈ ring h k) (empty : (h.slab s).usingCount = 0)
    (occupied : Occupied h e i s j) : False := by
  have used := (inv.slab_ok k hk s hs).using_count
  have positive := count_set_pos occupied.slot occupied.taken
  omega

end KmallocSlots

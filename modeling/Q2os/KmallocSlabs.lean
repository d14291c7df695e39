import Q2os.KmallocSlots

/- Slabs come and go: a page is requested, a slab is put on its list, an empty slab is taken
   off, its page is given back. -/
namespace KmallocSlabs
open Bitmap PageAllocator PageRuns Kmalloc KmallocPages HeapInvariant KmallocSlots

variable {boot : Nat → Prop} {pending : List Nat} {extra : List (Nat × Nat)} {h : Heap}

theorem inv_of_pages {pending' : List Nat} {g' : Gmd} (inv : Inv boot pending extra h)
    (layout : SameLayout h.g g') (pages : Pages g')
    (marked : ∀ i < 16, ∀ s ∈ ring h i, bit g'.bitsMap (h.slab s).page = true)
    (reserved : ∀ p, boot p ∨ p ∈ pending' → bit g'.bitsMap p = true ∧
      ∀ i < 16, ∀ s ∈ ring h i, (h.slab s).page ≠ p)
    (apart : ∀ p ∈ pending', ¬ boot p) (nodup : pending'.Nodup)
    (mapped : ∀ p ∈ pending', (h.g.pages p).phyAddress = pageSize * p) :
    Inv boot pending' extra { h with g := g' } where
  pages := pages
  ring_nodup := inv.ring_nodup
  own := inv.own
  slab_ok i hi s hs :=
    have ok := inv.slab_ok i hi s hs
    ⟨marked i hi s hs, ok.mapped, ok.slots, ok.using_count, ok.free_count, ok.length⟩
  reserved := reserved
  apart := apart
  pending_nodup := nodup
  pending_mapped p held := (layout.phys p).trans (mapped p held)
  boot_struct := inv.boot_struct
  boot_map := inv.boot_map
  in_page i hi s hs :=
    have place := inv.in_page i hi s hs
    ⟨place.struct, place.map, place.mapLength, place.slots⟩
  later_mapped i hi s hs := (layout.phys _).trans (inv.later_mapped i hi s hs)
  occupied e member := by
    obtain ⟨i, s, j, block⟩ := inv.occupied e member
    exact ⟨i, s, j, block.cache, block.listed, block.slot, block.address, block.fits, block.sized,
      block.taken⟩
  distinct := inv.distinct
  totals i hi := ⟨(inv.totals i hi).free, (inv.totals i hi).used⟩

theorem taken_page_inv {g' : Gmd} {page : Nat} (inv : Inv boot pending extra h)
    (takes : TakesPage h.g g' page) : Inv boot (page :: pending) extra { h with g := g' } := by
  have kept : ∀ p, bit h.g.bitsMap p = true → bit g'.bitsMap p = true ∧ p ≠ page := by
    intro p set
    rw [takes.bits, set, ite_self]
    refine ⟨rfl, ?_⟩
    rintro rfl
    rw [takes.free] at set
    cases set
  have unused : ∀ i < 16, ∀ s ∈ ring h i, (h.slab s).page ≠ page :=
    fun i hi s hs => (kept _ (inv.slab_ok i hi s hs).marked).2
  refine inv_of_pages inv takes.layout takes.pages ?_ ?_ ?_ ?_ ?_
  · intro i hi s hs
    exact (kept _ (inv.slab_ok i hi s hs).marked).1
  · intro p held
    by_cases new : p = page
    · subst new
      refine ⟨?_, unused⟩
      rw [takes.bits, if_pos rfl]
    · have old : boot p ∨ p ∈ pending := by
        rcases held with set_aside | member
        · exact Or.inl set_aside
        · exact Or.inr ((List.mem_cons.mp member).resolve_left new)
      exact ⟨(kept p (inv.reserved p old).1).1, (inv.reserved p old).2⟩
  · intro p member set_aside
    rcases List.mem_cons.mp member with rfl | old
    · exact (kept p (inv.reserved p (Or.inl set_aside)).1).2 rfl
    · exact inv.apart p old set_aside
  · exact List.nodup_cons.mpr
      ⟨fun member => (kept page (inv.reserved page (Or.inr member)).1).2 rfl, inv.pending_nodup⟩
  · intro p member
    rcases List.mem_cons.mp member with rfl | old
    · exact takes.address
    · exact inv.pending_mapped p old

theorem request_page_inv {g' : Gmd} {page : Nat} (inv : Inv boot pending extra h)
    (call : allocPages h.g zoneNormal 1 = (g', some page)) (flags : BitVec 64) :
    Inv boot (page :: pending) extra { h with g := pageInit g' page flags } := by
  have takes := alloc_one inv.pages call
  refine taken_page_inv inv ⟨takes.free, takes.address, fun j => ?_,
    same_layout_trans takes.layout (page_init_layout _ _ _), page_init_pages _ _ takes.pages⟩
  rw [page_init_bits]
  exact takes.bits j

theorem returned_page_inv {page : Nat} {g' : Gmd} (inv : Inv boot (page :: pending) extra h)
    (returns : ReturnsPage h.g g' page) : Inv boot pending extra { h with g := g' } := by
  obtain ⟨absent, nodup⟩ := List.nodup_cons.mp inv.pending_nodup
  have kept : ∀ p, p ≠ page → bit h.g.bitsMap p = true → bit g'.bitsMap p = true := by
    intro p other set
    rw [returns.bits, if_neg (Ne.symm other), set]
  refine inv_of_pages inv returns.layout returns.pages ?_ ?_ ?_ nodup ?_
  · intro i hi s hs
    exact kept _ ((inv.reserved page (Or.inr List.mem_cons_self)).2 i hi s hs)
      (inv.slab_ok i hi s hs).marked
  · intro p held
    have old : boot p ∨ p ∈ page :: pending := held.imp_right (List.mem_cons_of_mem page)
    refine ⟨kept p ?_ (inv.reserved p old).1, (inv.reserved p old).2⟩
    rintro rfl
    rcases held with set_aside | member
    · exact inv.apart p List.mem_cons_self set_aside
    · exact absent member
  · exact fun p member => inv.apart p (List.mem_cons_of_mem page member)
  · exact fun p member => inv.pending_mapped p (List.mem_cons_of_mem page member)

theorem return_page_inv {page : Nat} (inv : Inv boot (page :: pending) extra h) :
    Inv boot pending extra (freeSlabPage h page) :=
  returned_page_inv inv (free_one inv.pages (inv.pending_mapped page List.mem_cons_self))

def metasNew (i s : Nat) (v : Slab) : List (Nat × Nat) :=
  if i < 5 then [] else [(s, slabBytes), (v.colorMap, v.colorLength)]

theorem flatMap_range_perm {β : Type} {f g : Nat → List β} {x : List β} {n i : Nat} (hi : i < n)
    (same : ∀ k < n, k ≠ i → g k = f k) (here : (g i).Perm (x ++ f i)) :
    ((List.range n).flatMap g).Perm (x ++ (List.range n).flatMap f) := by
  induction n with
  | zero => omega
  | succ n ih =>
    rw [List.range_succ, List.flatMap_append, List.flatMap_append]
    simp only [List.flatMap_cons, List.flatMap_nil, List.append_nil]
    by_cases last : i = n
    · subst last
      have before : (List.range i).flatMap g = (List.range i).flatMap f := by
        rw [List.flatMap_def, List.flatMap_def]
        congr 1
        apply List.map_congr_left
        intro k member
        have small := List.mem_range.mp member
        exact same k (by omega) (by omega)
      rw [before]
      have moved := (List.Perm.append_left ((List.range i).flatMap f) here)
      exact moved.trans ((List.perm_append_comm_assoc _ x (f i)))
    · rw [same n (by omega) (Ne.symm last), ← List.append_assoc]
      exact (ih (by omega) fun k small => same k (by omega)).append_right (f n)

theorem mem_ring_append {s i k t : Nat} {v : Slab} :
    t ∈ ring (appendSlab (setSlab h s v) i s) k ↔ t ∈ ring h k ∨ (k = i ∧ t = s) := by
  unfold ring appendSlab setSlab
  by_cases here : k = i
  · subst here
    simp [or_assoc]
  · simp [here]

theorem slab_append_old {i s t : Nat} {v : Slab} (other : t ≠ s) :
    (appendSlab (setSlab h s v) i s).slab t = h.slab t := by
  simp [appendSlab, setSlab, other]

theorem slab_append_new {i s : Nat} {v : Slab} :
    (appendSlab (setSlab h s v) i s).slab s = v := by
  simp [appendSlab, setSlab]

theorem others_append {i s k : Nat} {v : Slab} :
    (appendSlab (setSlab h s v) i s).others k =
      if k = i then h.others i ++ [s] else h.others k := by
  by_cases here : k = i
  · subst here
    simp [appendSlab, setSlab]
  · simp [appendSlab, setSlab, here]

theorem metas_append {i s : Nat} {v : Slab} (hi : i < 16)
    (fresh : ∀ k < 16, ∀ t ∈ ring h k, t ≠ s) :
    (metas (appendSlab (setSlab h s v) i s)).Perm (metasNew i s v ++ metas h) := by
  have old : ∀ k < 16, (h.others k).flatMap (fun t =>
      [(t, slabBytes), (((appendSlab (setSlab h s v) i s).slab t).colorMap,
        ((appendSlab (setSlab h s v) i s).slab t).colorLength)]) =
      (h.others k).flatMap fun t => [(t, slabBytes), ((h.slab t).colorMap, (h.slab t).colorLength)] := by
    intro k hk
    rw [List.flatMap_def, List.flatMap_def]
    congr 1
    apply List.map_congr_left
    intro t member
    rw [slab_append_old (fresh k hk t (List.mem_cons_of_mem _ member))]
  unfold metas
  refine flatMap_range_perm hi ?_ ?_
  · intro k hk other
    unfold metasOf
    rw [others_append, if_neg other, old k hk]
  · unfold metasOf metasNew
    rw [others_append, if_pos rfl]
    by_cases small : i < 5
    · simp [small]
    · rw [if_neg small, if_neg small, if_neg small, List.flatMap_append, old i hi]
      simp only [List.flatMap_cons, List.flatMap_nil, List.append_nil, slab_append_new]
      exact List.perm_append_comm

/-- Putting a fresh slab on its list hands it the page and its metadata blocks. -/
theorem append_slab_inv {blocks : List (Nat × Nat)} {i page s : Nat} {v : Slab}
    (inv : Inv boot (page :: pending) blocks h) (hi : i < 16)
    (own_page : v.page = page) (mapped : v.vaddress = physToVirt (pageSize * page))
    (used : v.usingCount = 0) (free : v.freeCount = v.colorCount)
    (length : v.colorLength = colorLengthOf v.colorCount)
    (clear : ∀ j < v.colorCount, bit v.colors j = false)
    (slots : v.colorCount * cacheSize i ≤ pageSize)
    (fresh : ∀ k < 16, ∀ t ∈ ring h k, t ≠ s)
    (place : i < 5 → InPage (appendSlab (setSlab h s v) i s) i s)
    (parts : blocks.Perm (metasNew i s v ++ extra)) :
    Inv boot pending extra (appendSlab (setSlab h s v) i s) := by
  have unused := (inv.reserved page (Or.inr List.mem_cons_self)).2
  have metas_parts : (extra ++ metas (appendSlab (setSlab h s v) i s)).Perm (blocks ++ metas h) := by
    have first := (metas_append hi fresh (v := v)).append_left extra
    have second := (parts.append_right (metas h)).symm
    refine first.trans (List.Perm.trans ?_ second)
    rw [← List.append_assoc]
    exact (List.perm_append_comm).append_right (metas h)
  have later : ∀ k < 16, ∀ t ∈ (appendSlab (setSlab h s v) i s).others k,
      t ∈ h.others k ∧ t ≠ s ∨ k = i ∧ t = s := by
    intro k hk t member
    rw [others_append] at member
    split at member
    · next here =>
      rcases List.mem_append.mp member with old | new
      · exact Or.inl ⟨here ▸ old, fresh i hi t (List.mem_cons_of_mem _ old)⟩
      · exact Or.inr ⟨here, List.mem_singleton.mp new⟩
    · exact Or.inl ⟨member, fresh k hk t (List.mem_cons_of_mem _ member)⟩
  have zero : countSet v.colors v.colorCount = 0 := by
    have none : ∀ n ≤ v.colorCount, countSet v.colors n = 0 := by
      intro n
      induction n with
      | zero => intro _; rfl
      | succ n ih =>
        intro small
        rw [countSet, ih (by omega), clear n (by omega)]
        rfl
    exact none _ (Nat.le_refl _)
  exact {
    pages := inv.pages
    ring_nodup := by
      intro k hk
      by_cases here : k = i
      · subst here
        have same : ring (appendSlab (setSlab h s v) k s) k = ring h k ++ [s] := by
          rw [ring, others_append, if_pos rfl]
          rfl
        rw [same, List.nodup_append]
        refine ⟨inv.ring_nodup k hk, by simp, ?_⟩
        intro t member u last
        rw [List.mem_singleton.mp last]
        exact fresh k hk t member
      · have same : ring (appendSlab (setSlab h s v) i s) k = ring h k := by
          rw [ring, others_append, if_neg here]
          rfl
        exact same ▸ inv.ring_nodup k hk
    own := by
      intro k hk l hl t ht u hu pages
      rcases mem_ring_append.mp ht with oldT | ⟨rfl, rfl⟩
      · rw [slab_append_old (fresh k hk t oldT)] at pages
        rcases mem_ring_append.mp hu with oldU | ⟨rfl, rfl⟩
        · rw [slab_append_old (fresh l hl u oldU)] at pages
          exact inv.own k hk l hl t oldT u oldU pages
        · rw [slab_append_new, own_page] at pages
          exact absurd pages (unused k hk t oldT)
      · rw [slab_append_new, own_page] at pages
        rcases mem_ring_append.mp hu with oldU | ⟨rfl, rfl⟩
        · rw [slab_append_old (fresh l hl u oldU)] at pages
          exact absurd pages.symm (unused l hl u oldU)
        · exact ⟨rfl, rfl⟩
    slab_ok := by
      intro k hk t ht
      rcases mem_ring_append.mp ht with old | ⟨rfl, rfl⟩
      · have ok := inv.slab_ok k hk t old
        have same : (appendSlab (setSlab h s v) i s).slab t = h.slab t :=
          slab_append_old (fresh k hk t old)
        exact ⟨same ▸ ok.marked, same ▸ ok.mapped, same ▸ ok.slots, same ▸ ok.using_count,
          same ▸ ok.free_count, same ▸ ok.length⟩
      · have same : (appendSlab (setSlab h t v) k t).slab t = v := slab_append_new
        refine ⟨?_, ?_, ?_, ?_, ?_, ?_⟩ <;> rw [same]
        · rw [own_page]
          exact (inv.reserved page (Or.inr List.mem_cons_self)).1
        · rw [own_page]
          exact mapped
        · exact slots
        · rw [used, zero]
        · rw [used, free]
          rfl
        · exact length
    reserved := by
      intro p held
      obtain ⟨marked, foreign⟩ := inv.reserved p (held.imp_right (List.mem_cons_of_mem page))
      refine ⟨marked, ?_⟩
      intro k hk t ht
      rcases mem_ring_append.mp ht with old | ⟨rfl, rfl⟩
      · rw [slab_append_old (fresh k hk t old)]
        exact foreign k hk t old
      · rw [slab_append_new, own_page]
        rintro rfl
        rcases held with set_aside | member
        · exact inv.apart page List.mem_cons_self set_aside
        · exact (List.nodup_cons.mp inv.pending_nodup).1 member
    apart := fun p member => inv.apart p (List.mem_cons_of_mem page member)
    pending_nodup := (List.nodup_cons.mp inv.pending_nodup).2
    pending_mapped := fun p member => inv.pending_mapped p (List.mem_cons_of_mem page member)
    boot_struct := inv.boot_struct
    boot_map := by
      intro k hk
      have same : (appendSlab (setSlab h s v) i s).slab (h.pool k) = h.slab (h.pool k) :=
        slab_append_old (fresh k hk _ List.mem_cons_self)
      have map := inv.boot_map k hk
      rw [← same] at map
      exact map
    in_page := by
      intro k small t member
      rcases later k (by omega) t member with ⟨old, other⟩ | ⟨rfl, rfl⟩
      · have at_end := inv.in_page k small t old
        have same : (appendSlab (setSlab h s v) i s).slab t = h.slab t := slab_append_old other
        exact ⟨same ▸ at_end.struct, same ▸ at_end.map, same ▸ at_end.mapLength,
          same ▸ at_end.slots⟩
      · exact place small
    later_mapped := by
      intro k hk t member
      rcases later k hk t member with ⟨old, other⟩ | ⟨rfl, rfl⟩
      · rw [slab_append_old other]
        exact inv.later_mapped k hk t old
      · rw [slab_append_new, own_page]
        exact inv.pending_mapped page List.mem_cons_self
    occupied := by
      intro e member
      obtain ⟨k, t, l, block⟩ := inv.occupied e (metas_parts.mem_iff.mp member)
      have same : (appendSlab (setSlab h s v) i s).slab t = h.slab t :=
        slab_append_old (fresh k block.cache t block.listed)
      exact ⟨k, t, l, block.cache, mem_ring_append.mpr (Or.inl block.listed), same ▸ block.slot,
        same ▸ block.address, block.fits, block.sized, same ▸ block.taken⟩
    distinct := ((metas_parts.map Prod.fst).nodup_iff).mpr inv.distinct
    totals := by
      intro k hk
      have before := inv.totals k hk
      have old : ∀ f : Slab → Nat, ((ring h k).map fun t =>
          f ((appendSlab (setSlab h s v) i s).slab t)) = (ring h k).map fun t => f (h.slab t) := by
        intro f
        apply List.map_congr_left
        intro t member
        rw [slab_append_old (fresh k hk t member)]
      have total : (appendSlab (setSlab h s v) i s).totalFree =
          Function.update h.totalFree i (h.totalFree i + v.colorCount) := by
        simp [appendSlab, setSlab]
      by_cases here : k = i
      · subst here
        have grown : ∀ f : Slab → Nat, sumOver f (appendSlab (setSlab h s v) k s) k =
            sumOver f h k + f v := by
          intro f
          have rings : ring (appendSlab (setSlab h s v) k s) k = ring h k ++ [s] := by
            rw [ring, others_append, if_pos rfl]
            rfl
          rw [sumOver, rings, List.map_append, old f, List.sum_append]
          simp [slab_append_new, sumOver]
        constructor
        · rw [total, Function.update_self, grown, before.free, free]
        · rw [grown, used]
          exact before.used
      · have kept : ∀ f : Slab → Nat, sumOver f (appendSlab (setSlab h s v) i s) k =
            sumOver f h k := by
          intro f
          have rings : ring (appendSlab (setSlab h s v) i s) k = ring h k := by
            rw [ring, others_append, if_neg here]
            rfl
          rw [sumOver, rings, old f, sumOver]
        constructor
        · rw [total, Function.update_of_ne here, kept]
          exact before.free
        · rw [kept]
          exact before.used }

/- The way back. -/

theorem others_unlink {i s k : Nat} :
    (unlinkSlab h i s).others k = if k = i then (h.others i).erase s else h.others k := by
  by_cases here : k = i
  · subst here
    simp [unlinkSlab]
  · simp [unlinkSlab, here]

theorem later_of_unlink {i s k t : Nat} (member : t ∈ (unlinkSlab h i s).others k) :
    t ∈ h.others k := by
  rw [others_unlink] at member
  split at member
  · next here => exact here ▸ List.mem_of_mem_erase member
  · exact member

theorem ring_of_unlink {i s k t : Nat} (member : t ∈ ring (unlinkSlab h i s) k) :
    t ∈ ring h k := by
  rcases List.mem_cons.mp member with at_pool | later
  · exact List.mem_cons.mpr (Or.inl at_pool)
  · exact List.mem_cons_of_mem _ (later_of_unlink later)

theorem ring_unlink {i s k t : Nat} (listed : t ∈ ring h k) (other : k = i → t ≠ s) :
    t ∈ ring (unlinkSlab h i s) k := by
  rcases List.mem_cons.mp listed with at_pool | later
  · exact List.mem_cons.mpr (Or.inl at_pool)
  · refine List.mem_cons_of_mem _ ?_
    rw [others_unlink]
    by_cases here : k = i
    · subst here
      rw [if_pos rfl]
      exact (List.mem_erase_of_ne (other rfl)).mpr later
    · rw [if_neg here]
      exact later

theorem metas_unlink {i s : Nat} (hi : i < 16) (listed : s ∈ h.others i) :
    (metas h).Perm (metasNew i s (h.slab s) ++ metas (unlinkSlab h i s)) := by
  unfold metas
  refine flatMap_range_perm hi ?_ ?_
  · intro k hk other
    unfold metasOf
    rw [others_unlink, if_neg other]
    rfl
  · unfold metasOf metasNew
    rw [others_unlink, if_pos rfl]
    by_cases small : i < 5
    · simp [small]
    · rw [if_neg small, if_neg small, if_neg small]
      exact (List.perm_cons_erase listed).flatMap_right _

/-- Taking an empty slab off its list leaves its page and its metadata blocks with the call. -/
theorem unlink_slab_inv {i s : Nat} (inv : Inv boot pending extra h) (hi : i < 16)
    (listed : s ∈ h.others i) (empty : (h.slab s).usingCount = 0) :
    Inv boot ((h.slab s).page :: pending) (metasNew i s (h.slab s) ++ extra) (unlinkSlab h i s) := by
  have member : s ∈ ring h i := List.mem_cons_of_mem _ listed
  have others_nodup : (h.others i).Nodup := (List.nodup_cons.mp (inv.ring_nodup i hi)).2
  have not_pool : s ≠ h.pool i := by
    rintro same
    exact (List.nodup_cons.mp (inv.ring_nodup i hi)).1 (same ▸ listed)
  have gone : s ∉ ring (unlinkSlab h i s) i := by
    intro back
    rcases List.mem_cons.mp back with at_pool | later
    · exact not_pool at_pool
    · rw [others_unlink, if_pos rfl] at later
      exact (List.Nodup.mem_erase_iff others_nodup).mp later |>.1 rfl
  have unowned : ∀ k < 16, ∀ t ∈ ring (unlinkSlab h i s) k, (h.slab t).page ≠ (h.slab s).page := by
    intro k hk t ht pages
    obtain ⟨rfl, rfl⟩ := inv.own k hk i hi t (ring_of_unlink ht) s member pages
    exact gone ht
  have parts : ((metasNew i s (h.slab s) ++ extra) ++ metas (unlinkSlab h i s)).Perm
      (extra ++ metas h) := by
    refine List.Perm.trans ?_ ((metas_unlink hi listed).symm.append_left extra)
    rw [← List.append_assoc]
    exact (List.perm_append_comm).append_right _
  have fresh : ∀ p, boot p ∨ p ∈ pending → p ≠ (h.slab s).page :=
    fun p held same => (inv.reserved p held).2 i hi s member same.symm
  exact {
    pages := inv.pages
    ring_nodup := by
      intro k hk
      have sub : (ring (unlinkSlab h i s) k).Sublist (ring h k) := by
        refine List.Sublist.cons_cons _ ?_
        rw [others_unlink]
        split
        · next here => exact here ▸ List.erase_sublist
        · exact List.Sublist.refl _
      exact (inv.ring_nodup k hk).sublist sub
    own := fun k hk l hl t ht u hu =>
      inv.own k hk l hl t (ring_of_unlink ht) u (ring_of_unlink hu)
    slab_ok := fun k hk t ht =>
      have ok := inv.slab_ok k hk t (ring_of_unlink ht)
      ⟨ok.marked, ok.mapped, ok.slots, ok.using_count, ok.free_count, ok.length⟩
    reserved := by
      intro p held
      by_cases here : p = (h.slab s).page
      · rw [here]
        exact ⟨(inv.slab_ok i hi s member).marked, unowned⟩
      · have old : boot p ∨ p ∈ pending :=
          held.imp_right fun inList => (List.mem_cons.mp inList).resolve_left here
        obtain ⟨marked, foreign⟩ := inv.reserved p old
        exact ⟨marked, fun k hk t ht => foreign k hk t (ring_of_unlink ht)⟩
    apart := by
      intro p inList set_aside
      rcases List.mem_cons.mp inList with same | old
      · exact fresh p (Or.inl set_aside) same
      · exact inv.apart p old set_aside
    pending_nodup := List.nodup_cons.mpr
      ⟨fun inList => fresh _ (Or.inr inList) rfl, inv.pending_nodup⟩
    pending_mapped := by
      intro p inList
      rcases List.mem_cons.mp inList with rfl | old
      · exact inv.later_mapped i hi s listed
      · exact inv.pending_mapped p old
    boot_struct := inv.boot_struct
    boot_map := inv.boot_map
    in_page := fun k small t later =>
      have place := inv.in_page k small t (later_of_unlink later)
      ⟨place.struct, place.map, place.mapLength, place.slots⟩
    later_mapped := fun k hk t later => inv.later_mapped k hk t (later_of_unlink later)
    occupied := by
      intro e held
      obtain ⟨k, t, l, block⟩ := inv.occupied e (parts.mem_iff.mp held)
      refine ⟨k, t, l, block.cache, ring_unlink block.listed ?_, block.slot, block.address,
        block.fits, block.sized, block.taken⟩
      rintro - rfl
      exact empty_slab_free inv hi member empty block
    distinct := ((parts.map Prod.fst).nodup_iff).mpr inv.distinct
    totals := by
      intro k hk
      have before := inv.totals k hk
      by_cases here : k = i
      · subst here
        have shrunk : ∀ f : Slab → Nat, sumOver f h k =
            sumOver f (unlinkSlab h k s) k + f (h.slab s) := by
          intro f
          have rings : (ring h k).Perm (s :: ring (unlinkSlab h k s) k) := by
            rw [ring, ring, others_unlink, if_pos rfl]
            exact ((List.perm_cons_erase listed).cons _).trans (List.Perm.swap _ _ _)
          rw [sumOver, (rings.map _).sum_nat, List.map_cons, List.sum_cons, Nat.add_comm]
          rfl
        have ok := inv.slab_ok k hi s member
        have balance := ok.free_count
        have free_sum := before.free
        have used_sum := before.used
        rw [shrunk] at free_sum used_sum
        have total : (unlinkSlab h k s).totalFree k = h.totalFree k - (h.slab s).colorCount := by
          simp [unlinkSlab]
        constructor
        · rw [total]
          omega
        · have same : (unlinkSlab h k s).totalUsing k = h.totalUsing k := rfl
          rw [same]
          omega
      · have rings : ring (unlinkSlab h i s) k = ring h k := by
          rw [ring, others_unlink, if_neg here]
          rfl
        have total : (unlinkSlab h i s).totalFree k = h.totalFree k := by
          simp [unlinkSlab, here]
        constructor
        · rw [total, before.free, sumOver, sumOver, rings]
          rfl
        · rw [sumOver, rings]
          exact before.used }

end KmallocSlabs

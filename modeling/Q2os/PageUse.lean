import Q2os.PageRules

/- Which pages are marked in use: those set aside at boot, those that are held, and those of the
   slabs of kmalloc. -/
namespace PageUse
open Bitmap PageAllocator PageRuns Kmalloc KmallocPages HeapInvariant KmallocSlots KmallocSlabs
  KmallocSafety

/-- A page is marked in use and is not held by a slab of kmalloc. -/
def InUse (h : Heap) (p : Nat) : Prop :=
  bit h.g.bitsMap p = true ∧ ∀ i < 16, ∀ s ∈ ring h i, (h.slab s).page ≠ p

/-- Every page that is marked in use is known. -/
def Known (boot : Nat → Prop) (pending : List Nat) (h : Heap) : Prop :=
  ∀ p, bit h.g.bitsMap p = true →
    boot p ∨ p ∈ pending ∨ ∃ i < 16, ∃ s ∈ ring h i, (h.slab s).page = p

variable {boot : Nat → Prop} {pending : List Nat} {extra : List (Nat × Nat)} {h h' : Heap}

theorem in_use_iff (inv : Inv boot pending extra h) (known : Known boot pending h) (p : Nat) :
    InUse h p ↔ boot p ∨ p ∈ pending := by
  constructor
  · rintro ⟨marked, apart⟩
    rcases known p marked with set_aside | held | ⟨i, hi, s, listed, same⟩
    · exact Or.inl set_aside
    · exact Or.inr held
    · exact absurd same (apart i hi s listed)
  · exact inv.reserved p

theorem known_perm {pages : List Nat} (same : ∀ p ∈ pending, p ∈ pages)
    (known : Known boot pending h) : Known boot pages h :=
  fun p marked => (known p marked).imp_right fun more => more.imp_left (same p)

/- The color maps and the counters of slabs do not matter. -/
theorem known_slabs (known : Known boot pending h) (bits : h'.g.bitsMap = h.g.bitsMap)
    (rings : ∀ i, ring h' i = ring h i) (pages : ∀ s, (h'.slab s).page = (h.slab s).page) :
    Known boot pending h' := by
  intro p marked
  rw [bits] at marked
  rcases known p marked with set_aside | held | ⟨i, hi, s, listed, same⟩
  · exact Or.inl set_aside
  · exact Or.inr (Or.inl held)
  · exact Or.inr (Or.inr ⟨i, hi, s, by rw [rings]; exact listed, by rw [pages]; exact same⟩)

theorem set_slab_page {s t : Nat} {v : Slab} (same : v.page = (h.slab s).page) :
    ((setSlab h s v).slab t).page = (h.slab t).page := by
  unfold setSlab
  dsimp only
  by_cases here : t = s
  · rw [here, Function.update_self, same]
  · rw [Function.update_of_ne here]

theorem take_slot_known {i s : Nat} (known : Known boot pending h) :
    Known boot pending (takeSlot h i s).1 := by
  rcases take_slot_cases h i s with nothing | ⟨j, -, -, -, after⟩
  · rw [nothing]
    exact known
  · rw [after]
    exact known_slabs known rfl (fun _ => rfl) fun _ => set_slab_page rfl

theorem release_slot_known {i s address : Nat} (known : Known boot pending h) :
    Known boot pending (releaseSlot h i s address) :=
  known_slabs known rfl (fun _ => rfl) fun _ => set_slab_page rfl

theorem taken_page_known {g' : Gmd} {page : Nat}
    (bits : ∀ j, bit g'.bitsMap j = if page = j then true else bit h.g.bitsMap j)
    (known : Known boot pending h) : Known boot (page :: pending) { h with g := g' } := by
  intro p marked
  dsimp only at marked
  rw [bits] at marked
  by_cases here : page = p
  · exact Or.inr (Or.inl (List.mem_cons.mpr (Or.inl here.symm)))
  · rw [if_neg here] at marked
    exact (known p marked).imp_right fun more => more.imp_left (List.mem_cons_of_mem page)

theorem returned_page_known {g' : Gmd} {page : Nat}
    (bits : ∀ j, bit g'.bitsMap j = if page = j then false else bit h.g.bitsMap j)
    (known : Known boot (page :: pending) h) : Known boot pending { h with g := g' } := by
  intro p marked
  dsimp only at marked
  rw [bits] at marked
  by_cases here : page = p
  · rw [if_pos here] at marked
    cases marked
  · rw [if_neg here] at marked
    rcases known p marked with set_aside | held | slab
    · exact Or.inl set_aside
    · exact Or.inr (Or.inl ((List.mem_cons.mp held).resolve_left (Ne.symm here)))
    · exact Or.inr (Or.inr slab)

/- A held page that becomes the page of a slab; the slab was in no list before, since it is in one
   only now. -/
theorem append_slab_known {i s page : Nat} {v : Slab} (hi : i < 16) (own : v.page = page)
    (after : Inv boot pending extra (appendSlab (setSlab h s v) i s))
    (known : Known boot (page :: pending) h) :
    Known boot pending (appendSlab (setSlab h s v) i s) := by
  have here : s ∈ ring (appendSlab (setSlab h s v) i s) i := mem_ring_append.mpr (Or.inr ⟨rfl, rfl⟩)
  have fresh : ∀ k < 16, ∀ t ∈ ring h k, t ≠ s := by
    rintro k hk t listed rfl
    have there := (@mem_ring_append h t i k t v).mpr (Or.inl listed)
    obtain ⟨rfl, -⟩ := after.own k hk i hi t there t here rfl
    have nodup := after.ring_nodup k hk
    have twice : ring (appendSlab (setSlab h t v) k t) k = ring h k ++ [t] := by
      unfold ring appendSlab setSlab
      simp
    rw [twice] at nodup
    exact (List.nodup_append.mp nodup).2.2 t listed t (List.mem_singleton.mpr rfl) rfl
  intro p marked
  rcases known p marked with set_aside | held | ⟨k, hk, t, listed, same⟩
  · exact Or.inl set_aside
  · rcases List.mem_cons.mp held with rfl | old
    · exact Or.inr (Or.inr ⟨i, hi, s, here, by rw [slab_append_new, own]⟩)
    · exact Or.inr (Or.inl old)
  · refine Or.inr (Or.inr ⟨k, hk, t, mem_ring_append.mpr (Or.inl listed), ?_⟩)
    rw [slab_append_old (fresh k hk t listed)]
    exact same

def AllocKnown (kmalloc : Heap → Nat → Option (Heap × Option Nat)) : Prop :=
  ∀ (boot : Nat → Prop) (pending : List Nat) (extra : List (Nat × Nat)) (h h' : Heap)
    (size : Nat) (address : Option Nat), Inv boot pending extra h → Known boot pending h →
    kmalloc h size = some (h', address) → Known boot pending h'

theorem create_outside_known {f : Heap → Nat → Option (Heap × Option Nat)} {i page s : Nat}
    (nested : AllocSpec f) (keeps : AllocKnown f) (inv : Inv boot (page :: pending) extra h)
    (known : Known boot (page :: pending) h) (hi : i < 16) (large : 5 ≤ i)
    (call : createOutside f h i page = some (h', s)) : Known boot pending (appendSlab h' i s) := by
  have made := (create_outside_inv nested inv hi large call).1
  unfold createOutside at call
  split at call
  · next h₁ slab first =>
    dsimp only at call
    split at call
    · next h₂ map second =>
      cases call
      have inv₁ := (nested _ _ _ _ _ _ _ inv first).1
      have known₁ := keeps _ _ _ _ _ _ _ inv known first
      exact append_slab_known hi rfl made (keeps _ _ _ _ _ _ _ inv₁ known₁ second)
    · cases call
  · cases call

theorem kmalloc_body_known {f : Heap → Nat → Option (Heap × Option Nat)} (nested : AllocSpec f)
    (keeps : AllocKnown f) : AllocKnown (kmallocBody f) := by
  intro boot pending extra h h' size address inv known call
  have taken : ∀ {g : Heap} {i s : Nat}, Known boot pending g →
      some (takeSlot g i s) = some (h', address) → Known boot pending h' := by
    intro g i s before equal
    have after := @take_slot_known _ _ _ i s before
    rw [Option.some.inj equal] at after
    exact after
  unfold kmallocBody at call
  split at call
  · cases call
    exact known
  · next small =>
    obtain ⟨inRange, -⟩ := size_class_fits (Nat.le_of_not_lt small)
    dsimp only at call
    split at call
    · exact taken known call
    · unfold kmallocCreate at call
      generalize requested : allocPages h.g zoneNormal 1 = r at call
      obtain ⟨g, page⟩ := r
      cases page with
      | none =>
        cases call
        exact known
      | some page =>
        have held := request_page_inv inv requested pgKernel
        have begun : Known boot (page :: pending) { h with g := pageInit g page pgKernel } := by
          refine taken_page_known (fun j => ?_) known
          rw [page_init_bits]
          exact (alloc_one inv.pages requested).bits j
        dsimp only at call
        by_cases inPage : cacheSize (sizeClass size) ≤ 512
        · rw [if_pos inPage] at call
          have made := create_in_page_inv held (small_class.mp inPage)
          exact taken (append_slab_known inRange rfl made begun) call
        · rw [if_neg inPage] at call
          cases outside : createOutside f { h with g := pageInit g page pgKernel } (sizeClass size)
              page with
          | none => simp [outside] at call
          | some r =>
            obtain ⟨h₁, s⟩ := r
            rw [outside] at call
            have large : 5 ≤ sizeClass size :=
              Nat.le_of_not_lt fun below => inPage (small_class.mpr below)
            exact taken (create_outside_known nested keeps held begun inRange large outside) call

theorem kmalloc_known : AllocKnown kmalloc := by
  have none_spec : AllocSpec (kmallocDepth 0) := by
    intro boot pending extra h h' size address inv call
    cases call
  have none_known : AllocKnown (kmallocDepth 0) := by
    intro boot pending extra h h' size address inv known call
    cases call
  exact kmalloc_body_known (kmalloc_body_spec none_spec) (kmalloc_body_known none_spec none_known)

/- kmalloc marks pages and clears none. -/
def AllocMarks (kmalloc : Heap → Nat → Option (Heap × Option Nat)) : Prop :=
  ∀ (boot : Nat → Prop) (pending : List Nat) (extra : List (Nat × Nat)) (h h' : Heap)
    (size : Nat) (address : Option Nat), Inv boot pending extra h →
    kmalloc h size = some (h', address) → ∀ p, bit h.g.bitsMap p = true → bit h'.g.bitsMap p = true

theorem take_slot_bits (h : Heap) (i s : Nat) : (takeSlot h i s).1.g = h.g := by
  rcases take_slot_cases h i s with nothing | ⟨j, -, -, -, after⟩
  · rw [nothing]
  · rw [after]
    rfl

theorem create_outside_marks {f : Heap → Nat → Option (Heap × Option Nat)} {i page s : Nat}
    (nested : AllocSpec f) (marks : AllocMarks f) (inv : Inv boot pending extra h)
    (call : createOutside f h i page = some (h', s)) :
    ∀ p, bit h.g.bitsMap p = true → bit h'.g.bitsMap p = true := by
  unfold createOutside at call
  split at call
  · next h₁ slab first =>
    dsimp only at call
    split at call
    · next h₂ map second =>
      cases call
      have inv₁ := (nested _ _ _ _ _ _ _ inv first).1
      intro p marked
      exact marks _ _ _ _ _ _ _ inv₁ second p (marks _ _ _ _ _ _ _ inv first p marked)
    · cases call
  · cases call

theorem kmalloc_body_marks {f : Heap → Nat → Option (Heap × Option Nat)} (nested : AllocSpec f)
    (marks : AllocMarks f) : AllocMarks (kmallocBody f) := by
  intro boot pending extra h h' size address inv call
  have taken : ∀ {g : Heap} {i s : Nat},
      (∀ p, bit h.g.bitsMap p = true → bit g.g.bitsMap p = true) →
      some (takeSlot g i s) = some (h', address) →
      ∀ p, bit h.g.bitsMap p = true → bit h'.g.bitsMap p = true := by
    intro g i s before equal
    have same := take_slot_bits g i s
    rw [Option.some.inj equal] at same
    rw [same]
    exact before
  unfold kmallocBody at call
  split at call
  · cases call
    exact fun p marked => marked
  · dsimp only at call
    split at call
    · exact taken (fun p marked => marked) call
    · unfold kmallocCreate at call
      generalize requested : allocPages h.g zoneNormal 1 = r at call
      obtain ⟨g, page⟩ := r
      cases page with
      | none =>
        cases call
        exact fun p marked => marked
      | some page =>
        have held := request_page_inv inv requested pgKernel
        have begun : ∀ p, bit h.g.bitsMap p = true →
            bit (pageInit g page pgKernel).bitsMap p = true := by
          intro p marked
          rw [page_init_bits, (alloc_one inv.pages requested).bits p, marked, ite_self]
        dsimp only at call
        by_cases inPage : cacheSize (sizeClass size) ≤ 512
        · rw [if_pos inPage] at call
          generalize made : createInPage { h with g := pageInit g page pgKernel } (sizeClass size)
            page = r at call
          have after : ∀ p, bit h.g.bitsMap p = true →
              bit (appendSlab r.1 (sizeClass size) r.2).g.bitsMap p = true := by
            rw [← made]
            exact begun
          exact taken after call
        · rw [if_neg inPage] at call
          cases outside : createOutside f { h with g := pageInit g page pgKernel } (sizeClass size)
              page with
          | none => simp [outside] at call
          | some r =>
            obtain ⟨h₁, s⟩ := r
            rw [outside] at call
            have more := create_outside_marks nested marks held outside
            have after : ∀ p, bit h.g.bitsMap p = true →
                bit (appendSlab h₁ (sizeClass size) s).g.bitsMap p = true :=
              fun p marked => more p (begun p marked)
            exact taken after call

theorem kmalloc_marks : AllocMarks kmalloc := by
  have none_spec : AllocSpec (kmallocDepth 0) := by
    intro boot pending extra h h' size address inv call
    cases call
  have none_marks : AllocMarks (kmallocDepth 0) := by
    intro boot pending extra h h' size address inv call
    cases call
  exact kmalloc_body_marks (kmalloc_body_spec none_spec) (kmalloc_body_marks none_spec none_marks)

theorem unlink_slab_known {i s : Nat} (known : Known boot pending h) :
    Known boot ((h.slab s).page :: pending) (unlinkSlab h i s) := by
  intro p marked
  rcases known p marked with set_aside | held | ⟨k, hk, t, listed, same⟩
  · exact Or.inl set_aside
  · exact Or.inr (Or.inl (List.mem_cons_of_mem _ held))
  · by_cases here : t = s
    · rw [here] at same
      exact Or.inr (Or.inl (List.mem_cons.mpr (Or.inl same.symm)))
    · exact Or.inr (Or.inr ⟨k, hk, t, ring_unlink listed fun _ => here, same⟩)

theorem return_page_known {page : Nat} (inv : Inv boot (page :: pending) extra h)
    (known : Known boot (page :: pending) h) : Known boot pending (freeSlabPage h page) :=
  returned_page_known
    (free_one inv.pages (inv.pending_mapped page List.mem_cons_self)).bits known

def FreeKnown (limit : Nat) (kfree : Heap → Nat → Option (Heap × Nat)) : Prop :=
  ∀ (boot : Nat → Prop) (pending : List Nat) (e : Nat × Nat) (extra : List (Nat × Nat))
    (h h' : Heap) (r : Nat), e.2 ≤ limit → Inv boot pending (e :: extra) h →
    Known boot pending h → kfree h e.1 = some (h', r) → Known boot pending h'

theorem drop_slab_known {f : Heap → Nat → Option (Heap × Nat)} {i s : Nat}
    (nested : 5 ≤ i → FreeSpec 512 f) (keeps : 5 ≤ i → FreeKnown 512 f)
    (length : 5 ≤ i → (h.slab s).colorLength ≤ 512)
    (inv : Inv boot ((h.slab s).page :: pending) (metasNew i s (h.slab s) ++ extra) h)
    (known : Known boot ((h.slab s).page :: pending) h) (call : dropSlab f h i s = some h') :
    Known boot pending h' := by
  unfold dropSlab metasNew at *
  dsimp only at call
  by_cases small : i < 5
  · rw [if_pos (small_class.mpr small)] at call
    rw [if_pos small] at inv
    cases call
    exact return_page_known inv known
  · have large : 5 ≤ i := Nat.le_of_not_lt small
    rw [if_neg (fun fits => small (small_class.mp fits))] at call
    rw [if_neg small] at inv
    have swapped := inv_perm (List.Perm.swap _ _ _) inv
    obtain ⟨h₁, r₁, first, inv₁⟩ := nested large _ _ _ _ _ (length large) swapped
    have known₁ := keeps large _ _ _ _ _ _ _ (length large) swapped known first
    have inv₂ := return_page_inv inv₁
    have known₂ := return_page_known inv₁ known₁
    have struct : slabBytes ≤ 512 := by decide
    obtain ⟨h₂, r₂, second, inv₃⟩ := nested large _ _ (s, slabBytes) _ _ struct inv₂
    have known₃ := keeps large _ _ (s, slabBytes) _ _ _ _ struct inv₂ known₂ second
    dsimp only at first second
    rw [first] at call
    dsimp only at call
    rw [second] at call
    cases call
    exact known₃

theorem kfree_body_known {limit : Nat} {f : Heap → Nat → Option (Heap × Nat)}
    (nested : 512 < limit → FreeSpec 512 f) (keeps : 512 < limit → FreeKnown 512 f) :
    FreeKnown limit (kfreeBody f) := by
  intro boot pending e extra h h' r inLimit inv known call
  obtain ⟨i, s, j, block⟩ := inv.occupied e (List.mem_append_left _ List.mem_cons_self)
  have released := release_slot_inv inv block
  have begun := @release_slot_known _ _ _ i s e.1 known
  unfold kfreeBody at call
  rw [find_slab_block inv block] at call
  dsimp only at call
  split at call
  · next empty =>
    have later : s ∈ (releaseSlot h i s e.1).others i := by
      rcases List.mem_cons.mp block.listed with at_pool | later
      · exact absurd at_pool.symm empty.2.2
      · exact later
    have ok := released.slab_ok i block.cache s (List.mem_cons_of_mem _ later)
    have unlinked := unlink_slab_inv released block.cache later empty.1
    have deeper : 5 ≤ i → 512 < limit := by
      intro large
      refine Nat.lt_of_not_le fun small => ?_
      have inPage := small_size_class (Nat.le_trans inLimit small)
      have sized := block.sized
      omega
    have length : 5 ≤ i → ((unlinkSlab (releaseSlot h i s e.1) i s).slab s).colorLength ≤ 512 :=
      fun large => le_of_eq_of_le ok.length (color_length_small large ok.slots)
    cases dropped : dropSlab f (unlinkSlab (releaseSlot h i s e.1) i s) i s with
    | none =>
      rw [dropped] at call
      cases call
    | some h₁ =>
      rw [dropped] at call
      cases call
      exact drop_slab_known (fun large => nested (deeper large)) (fun large => keeps (deeper large))
        length unlinked (unlink_slab_known begun) dropped
  · cases call
    exact begun

theorem kfree_known (limit : Nat) : FreeKnown limit kfree :=
  kfree_body_known (fun _ => kfree_body_spec fun deeper => absurd deeper (by decide))
    fun _ => kfree_body_known (fun deeper => absurd deeper (by decide))
      fun deeper => absurd deeper (by decide)

end PageUse

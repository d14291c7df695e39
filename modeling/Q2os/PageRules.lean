import Q2os.KmallocSafety

/- What kmalloc and kfree do to the pages is a sequence of two things: to take a page and
   page_init it, and to page_clean a page and give it back. -/
namespace PageRules
open Bitmap PageAllocator PageRuns Kmalloc KmallocPages HeapInvariant KmallocSlots KmallocSlabs
  KmallocSafety

/- A page that a slab has to itself. -/
structure OwnPage (boot : Nat → Prop) (other : List Nat) (g : Gmd) (page : Nat) : Prop where
  marked : bit g.bitsMap page = true
  mapped : (g.pages page).phyAddress = pageSize * page
  later : ¬ boot page
  apart : page ∉ other

/- A property of the pages that holds on while pages are given back. -/
def DropRule (boot : Nat → Prop) (other : List Nat) (Q : Gmd → Prop) : Prop :=
  ∀ (g : Gmd) (page : Nat), Pages g → OwnPage boot other g page → Q g →
    Q (freePages (pageClean g page) (some page) 1)

/-- A property of the pages that holds on while pages are taken and given back; other are pages
that no slab has. -/
structure PageRule (boot : Nat → Prop) (other : List Nat) (Q : Gmd → Prop) : Prop where
  take : ∀ (g g' : Gmd) (page : Nat), Pages g → allocPages g zoneNormal 1 = (g', some page) → Q g →
    Q (pageInit g' page pgKernel)
  drop : DropRule boot other Q

theorem no_rule (boot : Nat → Prop) (other : List Nat) : PageRule boot other fun _ => True :=
  ⟨fun _ _ _ _ _ _ => trivial, fun _ _ _ _ _ => trivial⟩

variable {boot : Nat → Prop} {other pending : List Nat} {extra : List (Nat × Nat)} {h h' : Heap}
  {Q : Gmd → Prop}

theorem own_page {page : Nat} (inv : Inv boot (page :: pending) extra h)
    (covers : ∀ p ∈ other, p ∈ pending) : OwnPage boot other h.g page where
  marked := (inv.reserved page (Or.inr List.mem_cons_self)).1
  mapped := inv.pending_mapped page List.mem_cons_self
  later := inv.apart page List.mem_cons_self
  apart := fun member => (List.nodup_cons.mp inv.pending_nodup).1 (covers page member)

theorem take_slot_g (h : Heap) (i s : Nat) : (takeSlot h i s).1.g = h.g := by
  rcases take_slot_cases h i s with nothing | ⟨j, -, -, -, after⟩
  · rw [nothing]
  · rw [after]
    rfl

def AllocKeeps (boot : Nat → Prop) (Q : Gmd → Prop)
    (kmalloc : Heap → Nat → Option (Heap × Option Nat)) : Prop :=
  ∀ (pending : List Nat) (extra : List (Nat × Nat)) (h h' : Heap) (size : Nat)
    (address : Option Nat), Inv boot pending extra h → Q h.g →
    kmalloc h size = some (h', address) → Q h'.g

theorem create_outside_keeps {f : Heap → Nat → Option (Heap × Option Nat)} {i page s : Nat}
    (nested : AllocSpec f) (keeps : AllocKeeps boot Q f) (inv : Inv boot pending extra h)
    (start : Q h.g) (call : createOutside f h i page = some (h', s)) : Q h'.g := by
  unfold createOutside at call
  split at call
  · next h₁ slab first =>
    dsimp only at call
    split at call
    · next h₂ map second =>
      cases call
      have inv₁ := (nested _ _ _ _ _ _ _ inv first).1
      have kept := keeps _ _ _ _ _ _ inv₁ (keeps _ _ _ _ _ _ inv start first) second
      exact kept
    · cases call
  · cases call

theorem kmalloc_body_keeps {f : Heap → Nat → Option (Heap × Option Nat)}
    (rule : PageRule boot other Q) (nested : AllocSpec f) (keeps : AllocKeeps boot Q f) :
    AllocKeeps boot Q (kmallocBody f) := by
  intro pending extra h h' size address inv start call
  have taken : ∀ {g : Heap} {i s : Nat}, Q g.g → some (takeSlot g i s) = some (h', address) →
      Q h'.g := by
    intro g i s before equal
    have same := take_slot_g g i s
    rw [Option.some.inj equal] at same
    exact same ▸ before
  unfold kmallocBody at call
  split at call
  · cases call
    exact start
  · dsimp only at call
    split at call
    · exact taken start call
    · unfold kmallocCreate at call
      generalize requested : allocPages h.g zoneNormal 1 = r at call
      obtain ⟨g, page⟩ := r
      cases page with
      | none =>
        cases call
        exact start
      | some page =>
        have held := request_page_inv inv requested pgKernel
        have begun := rule.take _ _ _ inv.pages requested start
        dsimp only at call
        by_cases inPage : cacheSize (sizeClass size) ≤ 512
        · rw [if_pos inPage] at call
          have made : Q (appendSlab (createInPage { h with g := pageInit g page pgKernel }
            (sizeClass size) page).1 (sizeClass size) (createInPage
            { h with g := pageInit g page pgKernel } (sizeClass size) page).2).g := begun
          exact taken made call
        · rw [if_neg inPage] at call
          cases outside : createOutside f { h with g := pageInit g page pgKernel } (sizeClass size)
              page with
          | none => simp [outside] at call
          | some r =>
            obtain ⟨h₁, s⟩ := r
            rw [outside] at call
            have created := create_outside_keeps nested keeps held begun outside
            have made : Q (appendSlab h₁ (sizeClass size) s).g := created
            exact taken made call

theorem kmalloc_keeps (rule : PageRule boot other Q) : AllocKeeps boot Q kmalloc := by
  have none_spec : AllocSpec (kmallocDepth 0) := by
    intro boot pending extra h h' size address inv call
    cases call
  have none_keeps : AllocKeeps boot Q (kmallocDepth 0) := by
    intro pending extra h h' size address inv start call
    cases call
  exact kmalloc_body_keeps rule (kmalloc_body_spec none_spec)
    (kmalloc_body_keeps rule none_spec none_keeps)

def FreeKeeps (boot : Nat → Prop) (other : List Nat) (Q : Gmd → Prop) (limit : Nat)
    (kfree : Heap → Nat → Option (Heap × Nat)) : Prop :=
  ∀ (pending : List Nat) (e : Nat × Nat) (extra : List (Nat × Nat)) (h h' : Heap) (r : Nat),
    (∀ p ∈ other, p ∈ pending) → e.2 ≤ limit → Inv boot pending (e :: extra) h → Q h.g →
    kfree h e.1 = some (h', r) → Q h'.g

theorem drop_slab_keeps {f : Heap → Nat → Option (Heap × Nat)} {i s : Nat}
    (drop : DropRule boot other Q) (covers : ∀ p ∈ other, p ∈ pending)
    (nested : 5 ≤ i → FreeSpec 512 f) (keeps : 5 ≤ i → FreeKeeps boot other Q 512 f)
    (length : 5 ≤ i → (h.slab s).colorLength ≤ 512)
    (inv : Inv boot ((h.slab s).page :: pending) (metasNew i s (h.slab s) ++ extra) h)
    (start : Q h.g) (call : dropSlab f h i s = some h') : Q h'.g := by
  unfold dropSlab metasNew at *
  dsimp only at call
  by_cases small : i < 5
  · rw [if_pos (small_class.mpr small)] at call
    rw [if_pos small] at inv
    cases call
    exact drop _ _ inv.pages (own_page inv covers) start
  · have large : 5 ≤ i := Nat.le_of_not_lt small
    rw [if_neg (fun fits => small (small_class.mp fits))] at call
    rw [if_neg small] at inv
    have swapped := inv_perm (List.Perm.swap _ _ _) inv
    obtain ⟨h₁, r₁, first, inv₁⟩ := nested large _ _ _ _ _ (length large) swapped
    have kept₁ := keeps large _ _ _ _ _ _ (fun p member => List.mem_cons_of_mem _ (covers p member))
      (length large) swapped start first
    have inv₂ := return_page_inv inv₁
    have kept₂ := drop _ _ inv₁.pages (own_page inv₁ covers) kept₁
    have struct : slabBytes ≤ 512 := by decide
    obtain ⟨h₂, r₂, second, inv₃⟩ := nested large _ _ (s, slabBytes) _ _ struct inv₂
    have kept₃ := keeps large _ (s, slabBytes) _ _ _ _ covers struct inv₂ kept₂ second
    dsimp only at first second
    rw [first] at call
    dsimp only at call
    rw [second] at call
    cases call
    exact kept₃

theorem kfree_body_keeps {limit : Nat} {f : Heap → Nat → Option (Heap × Nat)}
    (drop : DropRule boot other Q) (nested : 512 < limit → FreeSpec 512 f)
    (keeps : 512 < limit → FreeKeeps boot other Q 512 f) :
    FreeKeeps boot other Q limit (kfreeBody f) := by
  intro pending e extra h h' r covers inLimit inv start call
  obtain ⟨i, s, j, block⟩ := inv.occupied e (List.mem_append_left _ List.mem_cons_self)
  have released := release_slot_inv inv block
  unfold kfreeBody at call
  rw [find_slab_block inv block] at call
  dsimp only at call
  split at call
  · next empty =>
    have later : s ∈ (releaseSlot h i s e.1).others i := by
      rcases List.mem_cons.mp block.listed with at_pool | later
      · exact absurd at_pool.symm empty.2.2
      · exact later
    have ok := released.slab_ok i block.cache s (List.mem_cons_of_mem _ later)
    have unlinked := unlink_slab_inv released block.cache later empty.1
    have deeper : 5 ≤ i → 512 < limit := by
      intro large
      refine Nat.lt_of_not_le fun small => ?_
      have inPage := small_size_class (Nat.le_trans inLimit small)
      have sized := block.sized
      omega
    have length : 5 ≤ i → ((unlinkSlab (releaseSlot h i s e.1) i s).slab s).colorLength ≤ 512 :=
      fun large => le_of_eq_of_le ok.length (color_length_small large ok.slots)
    cases dropped : dropSlab f (unlinkSlab (releaseSlot h i s e.1) i s) i s with
    | none =>
      rw [dropped] at call
      cases call
    | some h₁ =>
      rw [dropped] at call
      cases call
      exact drop_slab_keeps drop covers (fun large => nested (deeper large))
        (fun large => keeps (deeper large)) length unlinked start dropped
  · cases call
    exact start

theorem kfree_keeps (drop : DropRule boot other Q) (limit : Nat) :
    FreeKeeps boot other Q limit kfree :=
  kfree_body_keeps drop (fun _ => kfree_body_spec fun deeper => absurd deeper (by decide))
    fun _ => kfree_body_keeps drop (fun deeper => absurd deeper (by decide))
      fun deeper => absurd deeper (by decide)

end PageRules

import Q2os.OwnedSpace

/- The tables that copy_mm builds by hand, and what the pages hold that they map. -/
namespace AddressSpace
open PageAllocator Kmalloc KmallocSlabs KmallocSafety SlabCache TableTree

def Beyond (tables fresh : List Nat) (a : Nat) : Prop :=
  (∀ t ∈ tables, a < t ∨ t + tableBytes ≤ a) ∧
    ∀ p ∈ fresh, a < pageSize * p ∨ pageSize * p + pageSize ≤ a

def spaceBlocks (address pgd pdpt pdt : Nat) : List (Nat × Nat) :=
  [(physToVirt pdt, tableBytes), (physToVirt pdpt, tableBytes), (physToVirt pgd, tableBytes),
    (address, mmBytes)]

/-- What copy_mm has made of a kernel: three tables under each other with some pages in the last
    one, and nothing else changed. -/
structure Built (k k' : Kernel) (address pgd pdpt pdt : Nat) (fresh : List Nat)
    (last : Nat → Nat) : Prop where
  blocks : k'.account.blocks = spaceBlocks address pgd pdpt pdt ++ k.account.blocks
  pages : k'.account.pages = fresh ++ k.account.pages
  root : ∀ i < 256, k'.memory (slot pgd i) = if i = 0 then pdpt + pageUserDir else 0
  second : ∀ i < 512, k'.memory (slot pdpt i) = if i = 0 then pdt + pageUserDir else 0
  third : ∀ i < 512, k'.memory (slot pdt i) = last i
  frame : ∀ a, Beyond [pgd, pdpt, pdt] fresh a → k'.memory a = k.memory a

variable {boot : Nat → Prop} {otherPages : List Nat} {otherBlocks : List (Nat × Nat)}
  {k k' : Kernel} {address pgd pdpt pdt : Nat} {fresh : List Nat} {last : Nat → Nat}

structure Placed (pgd pdpt pdt : Nat) : Prop where
  aligned : ∀ t ∈ [pgd, pdpt, pdt], Aligned t
  pgd_pdpt : pgd ≠ pdpt
  pgd_pdt : pgd ≠ pdt
  pdpt_pdt : pdpt ≠ pdt

theorem Built.held (built : Built k k' address pgd pdpt pdt fresh last) {t : Nat}
    (listed : t ∈ [pgd, pdpt, pdt]) : (physToVirt t, tableBytes) ∈ k'.account.blocks := by
  rw [built.blocks]
  apply List.mem_append_left
  simp only [List.mem_cons, List.not_mem_nil, or_false] at listed
  rcases listed with rfl | rfl | rfl
  · simp [spaceBlocks]
  · simp [spaceBlocks]
  · simp [spaceBlocks]

theorem Built.placed (built : Built k k' address pgd pdpt pdt fresh last)
    (sound : Sound boot otherPages otherBlocks k'.account) : Placed pgd pdpt pdt := by
  have nodup := sound.starts_nodup
  rw [built.blocks] at nodup
  simp only [spaceBlocks, List.cons_append, List.map_cons, List.nodup_cons, List.mem_cons,
    not_or] at nodup
  obtain ⟨⟨third_second, third_first, _⟩, ⟨second_first, _⟩, _⟩ := nodup
  refine ⟨fun t member => ?_, ?_, ?_, ?_⟩
  · exact (table_place sound.toInv (List.mem_append_left _ (built.held member))).1
  · exact fun same => second_first (by rw [same])
  · exact fun same => third_first (by rw [same])
  · exact fun same => third_second (by rw [same])

theorem clear_apart (memory : TableTree.Words) {t u i : Nat} (first : Aligned t)
    (second : Aligned u) (differ : t ≠ u) (small : i < 512) :
    clearWords memory u 512 (slot t i) = memory (slot t i) := by
  have apart := aligned_apart first second differ
  refine if_neg ?_
  unfold slot
  unfold tableBytes at apart
  omega

theorem slot_outside {t a i : Nat} (outside : a < t ∨ t + tableBytes ≤ a) (small : i < 512) :
    a ≠ slot t i := by
  unfold slot
  unfold tableBytes at outside
  omega

theorem clear_outside (memory : TableTree.Words) {t a : Nat}
    (outside : a < t ∨ t + tableBytes ≤ a) : clearWords memory t 512 a = memory a := by
  refine if_neg ?_
  unfold tableBytes at outside
  omega

theorem slot_index {t i j : Nat} (differ : i ≠ j) : slot t i ≠ slot t j := by
  unfold slot
  omega

theorem slotOf_table {t tag i : Nat} (aligned : Aligned t) (small : tag < tableBytes) :
    slotOf (t + tag) i = slot t i := by
  rw [slotOf, base_entry aligned small]

theorem user_space_clear (k : Kernel) (pgd i : Nat) (small : i < 256) :
    (clearUserSpace (copyKernelSpace k pgd) pgd).memory (slot pgd i) = 0 := by
  refine if_pos ⟨?_, ?_⟩
  · unfold slot
    omega
  · unfold slot
    omega

theorem kernel_space_outside (k : Kernel) {pgd a : Nat} (outside : a < pgd ∨ pgd + tableBytes ≤ a) :
    (clearUserSpace (copyKernelSpace k pgd) pgd).memory a = k.memory a := by
  unfold tableBytes at outside
  unfold clearUserSpace copyKernelSpace clearWords copyWords
  dsimp only
  rw [if_neg (by omega), if_neg (by omega)]

structure NewRoot (k k' : Kernel) (pgd : Nat) : Prop where
  account : k'.account = k.account
  clear : ∀ i < 256, k'.memory (slot pgd i) = 0
  frame : ∀ a, a < pgd ∨ pgd + tableBytes ≤ a → k'.memory a = k.memory a

theorem copied_root (k : Kernel) (pgd : Nat) :
    NewRoot k (clearUserSpace (copyKernelSpace k pgd) pgd) pgd :=
  ⟨rfl, user_space_clear k pgd, fun _ outside => kernel_space_outside k outside⟩

theorem tables_built {k₁ k₂ root k₃ k₄ : Kernel}
    (sound : Sound boot otherPages otherBlocks k.account)
    (mm : takeMm k = some (k₁, address)) (table : takeTable k₁ = some (k₂, pgd))
    (new : NewRoot k₂ root pgd)
    (first : linkTable root (slotOf pgd (gdtIndex codeStart)) = some k₃)
    (second : linkTable k₃ (slotOf (k₃.memory (slotOf pgd (gdtIndex codeStart)))
      (index1G codeStart)) = some k₄) :
    ∃ pdpt pdt, Sound boot otherPages otherBlocks k₄.account ∧
      Built k k₄ address pgd pdpt pdt [] (fun _ => 0) ∧
      slotOf (k₄.memory (slotOf (k₃.memory (slotOf pgd (gdtIndex codeStart)))
        (index1G codeStart))) (index2M codeStart) = slot pdt 4 := by
  obtain ⟨sound₁, pages₁, blocks₁, memory₁, _⟩ := take_mm_spec sound mm
  obtain ⟨sound₂, pages₂, blocks₂, memory₂, _⟩ := take_table_spec sound₁ table
  obtain ⟨account, clear, frame⟩ := new
  have filled : Sound boot otherPages otherBlocks root.account := account ▸ sound₂
  obtain ⟨pdpt, sound₃, aligned, pages₃, blocks₃, memory₃⟩ := link_table_made filled first
  obtain ⟨pdt, sound₄, aligned', pages₄, blocks₄, memory₄⟩ := link_table_made sound₃ second
  rw [account] at pages₃ blocks₃
  have held : (physToVirt pgd, tableBytes) ∈ k₂.account.blocks ++ otherBlocks := by
    rw [blocks₂]
    exact List.mem_append_left _ List.mem_cons_self
  have place := (table_place sound₂.toInv held).1
  have pdpt_pgd : pdpt ≠ pgd := fresh_table sound₃ blocks₃ (by
    rw [blocks₂]
    exact List.mem_cons_self)
  have pdt_pdpt : pdt ≠ pdpt := fresh_table sound₄ blocks₄ (by
    rw [blocks₃]
    exact List.mem_cons_self)
  have pdt_pgd : pdt ≠ pgd := fresh_table sound₄ blocks₄ (by
    rw [blocks₃, blocks₂]
    exact List.mem_cons_of_mem _ List.mem_cons_self)
  have tmp : slotOf pgd (gdtIndex codeStart) = slot pgd 0 := by
    rw [slotOf, base_aligned place]
    rfl
  rw [tmp] at memory₃ memory₄ ⊢
  have entry₃ : k₃.memory (slot pgd 0) = pdpt + pageUserDir := by
    rw [memory₃, Function.update_self]
  have tmp₃ : slotOf (k₃.memory (slot pgd 0)) (index1G codeStart) = slot pdpt 0 := by
    rw [entry₃, slotOf_table aligned (by decide)]
    rfl
  rw [tmp₃] at memory₄ ⊢
  have entry₄ : k₄.memory (slot pdpt 0) = pdt + pageUserDir := by
    rw [memory₄, Function.update_self]
  refine ⟨pdpt, pdt, sound₄, ⟨?_, ?_, ?_, ?_, ?_, ?_⟩, ?_⟩
  · rw [blocks₄, blocks₃, blocks₂, blocks₁]
    rfl
  · rw [pages₄, pages₃, pages₂, pages₁]
    rfl
  · intro i small
    rw [memory₄, Function.update_of_ne (slot_ne place aligned (Ne.symm pdpt_pgd) (by omega) (by omega)),
      clear_apart _ place aligned' (Ne.symm pdt_pgd) (by omega)]
    by_cases zero : i = 0
    · rw [zero, if_pos rfl, entry₃]
    · rw [if_neg zero, memory₃, Function.update_of_ne (slot_index zero),
        clear_apart _ place aligned (Ne.symm pdpt_pgd) (by omega)]
      exact clear i small
  · intro i small
    by_cases zero : i = 0
    · rw [zero, if_pos rfl, entry₄]
    · rw [if_neg zero, memory₄, Function.update_of_ne (slot_index zero),
        clear_apart _ aligned aligned' (Ne.symm pdt_pdpt) small, memory₃,
        Function.update_of_ne (slot_ne aligned place pdpt_pgd small (by omega))]
      exact clear_own _ small
  · intro i small
    rw [memory₄, Function.update_of_ne (slot_ne aligned' aligned pdt_pdpt small (by omega))]
    exact clear_own _ small
  · intro a beyond
    have out_pgd := beyond.1 pgd (by simp)
    have out_pdpt := beyond.1 pdpt (by simp)
    have out_pdt := beyond.1 pdt (by simp)
    rw [memory₄, Function.update_of_ne (slot_outside out_pdpt (by omega)), clear_outside _ out_pdt,
      memory₃, Function.update_of_ne (slot_outside out_pgd (by omega)), clear_outside _ out_pdpt,
      frame a out_pgd, memory₂, memory₁]
  · rw [entry₄, slotOf_table aligned' (by decide)]
    rfl

theorem copy_words_outside (memory : TableTree.Words) {source target n a : Nat}
    (outside : a < target ∨ target + n ≤ a) : copyWords memory source target n a = memory a := by
  refine if_neg ?_
  omega

theorem copy_words_inside (memory : TableTree.Words) {source target n o : Nat} (inside : o < n) :
    copyWords memory source target n (target + o) = memory (source + o) := by
  have back : target + o - target = o := by omega
  unfold copyWords
  rw [if_pos (by omega), back]

theorem page_linked {k₁ k₂ : Kernel} {i p : Nat}
    (sound : Sound boot otherPages otherBlocks k'.account)
    (sound₁ : Sound boot otherPages otherBlocks k₁.account)
    (built : Built k k' address pgd pdpt pdt fresh last) (small : i < 512)
    (pages₁ : k₁.account.pages = p :: k'.account.pages)
    (blocks₁ : k₁.account.blocks = k'.account.blocks)
    (memory₁ : k₁.memory = Function.update k'.memory (slot pdt i) (pageEntry p))
    (account₂ : k₂.account = k₁.account)
    (outside : ∀ a, a < pageSize * p ∨ pageSize * p + pageSize ≤ a → k₂.memory a = k₁.memory a) :
    Built k k₂ address pgd pdpt pdt (p :: fresh) (Function.update last i (pageEntry p)) := by
  have placed := built.placed sound
  have aligned := placed.aligned
  have out_page : ∀ t ∈ [pgd, pdpt, pdt], ∀ j < 512,
      k₂.memory (slot t j) = k₁.memory (slot t j) := by
    intro t listed j small'
    have here : (physToVirt t, tableBytes) ∈ k₁.account.blocks := by
      rw [blocks₁]
      exact built.held listed
    have apart := (table_place sound₁.toInv (List.mem_append_left _ here)).2 p (by
      rw [pages₁]
      exact List.mem_append_left _ List.mem_cons_self)
    apply outside
    unfold slot
    unfold tableBytes at apart
    omega
  have written : ∀ t ∈ [pgd, pdpt, pdt], ∀ j < 512,
      (t = pdt → j ≠ i) → k₂.memory (slot t j) = k'.memory (slot t j) := by
    intro t listed j small' other
    have differ : slot t j ≠ slot pdt i := by
      by_cases same : t = pdt
      · rw [same]
        exact slot_index (other same)
      · exact slot_ne (aligned t listed) (aligned pdt (by simp)) same small' small
    rw [out_page t listed j small', memory₁, Function.update_of_ne differ]
  refine ⟨?_, ?_, ?_, ?_, ?_, ?_⟩
  · rw [account₂, blocks₁, built.blocks]
  · rw [account₂, pages₁, built.pages, List.cons_append]
  · intro j small'
    rw [written pgd (by simp) j (by omega) fun same => absurd same placed.pgd_pdt]
    exact built.root j small'
  · intro j small'
    rw [written pdpt (by simp) j small' fun same => absurd same placed.pdpt_pdt]
    exact built.second j small'
  · intro j small'
    by_cases here : j = i
    · rw [here, Function.update_self, out_page pdt (by simp) i small, memory₁, Function.update_self]
    · rw [Function.update_of_ne here, written pdt (by simp) j small' fun _ => here]
      exact built.third j small'
  · intro a beyond
    rw [outside a (beyond.2 p List.mem_cons_self), memory₁,
      Function.update_of_ne (slot_outside (beyond.1 pdt (by simp)) small)]
    exact built.frame a ⟨beyond.1, fun p' member => beyond.2 p' (List.mem_cons_of_mem _ member)⟩

theorem page_built {k₁ k₂ : Kernel} {source v i phy : Nat}
    (sound : Sound boot otherPages otherBlocks k'.account)
    (built : Built k k' address pgd pdpt pdt fresh last) (small : i < 512)
    (linked : linkPage k' (slot pdt i) = some (k₁, phy))
    (copied : copyPage k₁ source v phy = some k₂) :
    ∃ p q, phy = pageSize * p ∧ Sound boot otherPages otherBlocks k₂.account ∧
      Built k k₂ address pgd pdpt pdt (p :: fresh) (Function.update last i (pageEntry p)) ∧
      mapping k₁.memory source v = some q ∧
      (∀ o < pageSize, k₂.memory (pageSize * p + o) = k₁.memory (q + o)) ∧
      (∀ a, Beyond [pgd, pdpt, pdt] [p] a → k₂.memory a = k'.memory a) ∧
      ∀ a, Beyond [pgd, pdpt, pdt] [] a → k₁.memory a = k'.memory a := by
  obtain ⟨p, rfl, sound₁, pages₁, blocks₁, memory₁⟩ := link_page_made sound linked
  obtain ⟨q, mapped, made⟩ := Option.map_eq_some_iff.mp copied
  have memory₂ : k₂.memory = copyWords k₁.memory q (pageSize * p) pageSize := by rw [← made]
  have account₂ : k₂.account = k₁.account := by rw [← made]
  have outside : ∀ a, a < pageSize * p ∨ pageSize * p + pageSize ≤ a →
      k₂.memory a = k₁.memory a := by
    intro a outside
    rw [memory₂]
    exact copy_words_outside _ outside
  have kept : ∀ a, Beyond [pgd, pdpt, pdt] [] a → k₁.memory a = k'.memory a := by
    intro a beyond
    rw [memory₁, Function.update_of_ne (slot_outside (beyond.1 pdt (by simp)) small)]
  refine ⟨p, q, rfl, account₂ ▸ sound₁,
    page_linked sound sound₁ built small pages₁ blocks₁ memory₁ account₂ outside, mapped, ?_, ?_, kept⟩
  · intro o inside
    rw [memory₂]
    exact copy_words_inside _ inside
  · intro a beyond
    rw [outside a (beyond.2 p List.mem_cons_self), kept a ⟨beyond.1, nofun⟩]

/-- The page p holds what a pgd mapped at v, in a memory that was still the old one beyond the new
    tables and pages. -/
def Shows (k k' : Kernel) (tables fresh : List Nat) (source v p : Nat) : Prop :=
  ∃ memory q, (∀ a, Beyond tables fresh a → memory a = k.memory a) ∧
    mapping memory source v = some q ∧
    ∀ o < pageSize, k'.memory (pageSize * p + o) = memory (q + o)

def codeEntry (p : Nat) : Nat → Nat := Function.update (fun _ => 0) 4 (pageEntry p)
def heapEntry (p h : Nat) : Nat → Nat := Function.update (codeEntry p) 6 (pageEntry h)

/-- What copy_mm leaves. -/
structure Copied (k k' : Kernel) (mm mm' : Mm) (pdpt pdt : Nat) (fresh : List Nat)
    (last : Nat → Nat) : Prop where
  start_brk : mm'.startBrk = mm.startBrk
  end_brk : mm'.endBrk = mm.endBrk
  built : Built k k' mm'.address mm'.pgd pdpt pdt fresh last

theorem Built.page_beyond (built : Built k k' address pgd pdpt pdt fresh last)
    (sound : Sound boot otherPages otherBlocks k'.account) {new : List Nat} {p o : Nat}
    (held : p ∈ k'.account.pages ++ otherPages) (differ : p ∉ new) (inside : o < pageSize) :
    Beyond [pgd, pdpt, pdt] new (pageSize * p + o) := by
  constructor
  · intro t listed
    have apart := (table_place sound.toInv (List.mem_append_left _ (built.held listed))).2 p held
    omega
  · intro p' member
    have other : p ≠ p' := fun same => differ (same ▸ member)
    unfold pageSize at *
    omega

theorem slotAt_built (built : Built k k' address pgd pdpt pdt fresh last)
    (placed : Placed pgd pdpt pdt) : slotAt k'.memory pgd brkStart = slot pdt 6 := by
  have first : slotOf pgd (gdtIndex brkStart) = slot pgd 0 := by
    rw [slotOf, base_aligned (placed.aligned pgd (by simp))]
    rfl
  have root := built.root 0 (by omega)
  have second := built.second 0 (by omega)
  rw [if_pos rfl] at root second
  have next : slotOf (k'.memory (slot pgd 0)) (index1G brkStart) = slot pdpt 0 := by
    rw [root, slotOf_table (placed.aligned pdpt (by simp)) (by decide)]
    rfl
  unfold slotAt
  rw [first]
  dsimp only
  rw [next, second, slotOf_table (placed.aligned pdt (by simp)) (by decide)]
  rfl

/-- copy_mm makes tables for the page of the code and for one page of the heap, if there is a
    heap, and copies these. -/
theorem copy_mm_spec {mm mm' : Mm} (sound : Sound boot otherPages otherBlocks k.account)
    (call : copyMm k mm = some (k', mm')) : ∃ pdpt pdt p,
    Sound boot otherPages otherBlocks k'.account ∧
    ((mm.endBrk = mm.startBrk ∧ Copied k k' mm mm' pdpt pdt [p] (codeEntry p) ∧
        Shows k k' [mm'.pgd, pdpt, pdt] [p] mm.pgd codeStart p) ∨
      (mm.endBrk ≠ mm.startBrk ∧ ∃ h, Copied k k' mm mm' pdpt pdt [h, p] (heapEntry p h) ∧
        Shows k k' [mm'.pgd, pdpt, pdt] [h, p] mm.pgd codeStart p ∧
        Shows k k' [mm'.pgd, pdpt, pdt] [h, p] mm.pgd brkStart h)) := by
  obtain ⟨⟨k₁, address⟩, step₁, call⟩ := Option.bind_eq_some_iff.mp call
  obtain ⟨⟨k₂, pgd⟩, step₂, call⟩ := Option.bind_eq_some_iff.mp call
  dsimp only at call
  obtain ⟨k₃, step₃, call⟩ := Option.bind_eq_some_iff.mp call
  obtain ⟨k₄, step₄, call⟩ := Option.bind_eq_some_iff.mp call
  obtain ⟨pdpt, pdt, sound₄, built₄, tmp⟩ := tables_built sound step₁ step₂ (copied_root k₂ pgd) step₃ step₄
  rw [tmp] at call
  obtain ⟨⟨k₅, phy⟩, step₅, call⟩ := Option.bind_eq_some_iff.mp call
  obtain ⟨k₆, step₆, call⟩ := Option.bind_eq_some_iff.mp call
  obtain ⟨p, q, _, sound₆, built₆, mapped, same, after, before⟩ :=
    page_built sound₄ built₄ (by omega) step₅ step₆
  have old : ∀ {new : List Nat} a, Beyond [pgd, pdpt, pdt] new a → k₅.memory a = k.memory a := by
    intro new a beyond
    rw [before a ⟨beyond.1, nofun⟩]
    exact built₄.frame a ⟨beyond.1, nofun⟩
  by_cases heap : mm.endBrk = mm.startBrk
  · rw [if_neg (not_not.mpr heap)] at call
    cases call
    exact ⟨pdpt, pdt, p, sound₆, Or.inl ⟨heap, ⟨rfl, rfl, built₆⟩, k₅.memory, q,
      fun a beyond => old a beyond, mapped, same⟩⟩
  · rw [if_pos heap] at call
    rw [slotAt_built built₆ (built₆.placed sound₆)] at call
    obtain ⟨⟨k₇, phy⟩, step₇, call⟩ := Option.bind_eq_some_iff.mp call
    obtain ⟨k₈, step₈, call⟩ := Option.bind_eq_some_iff.mp call
    obtain ⟨h, r, _, sound₈, built₈, mapped₈, same₈, after₈, before₈⟩ :=
      page_built sound₆ built₆ (by omega) step₇ step₈
    cases call
    refine ⟨pdpt, pdt, p, sound₈, Or.inr ⟨heap, h, ⟨rfl, rfl, built₈⟩,
      ⟨k₅.memory, q, fun a beyond => old a beyond, mapped, fun o inside => ?_⟩,
      ⟨k₇.memory, r, fun a beyond => ?_, mapped₈, same₈⟩⟩⟩
    · have nodup := sound₈.pages_nodup
      rw [built₈.pages, List.cons_append, List.nodup_cons] at nodup
      have differ : p ∉ [h] := fun member =>
        nodup.1 (List.mem_singleton.mp member ▸ List.mem_cons_self)
      have held : p ∈ k'.account.pages ++ otherPages := by
        rw [built₈.pages]
        simp
      rw [after₈ _ (built₈.page_beyond sound₈ held differ inside)]
      exact same o inside
    · rw [before₈ a ⟨beyond.1, nofun⟩]
      exact built₆.frame a ⟨beyond.1, fun p' member => beyond.2 p' (List.mem_cons_of_mem _ member)⟩

end AddressSpace

import Q2os.ForkedSpace

/- What a child has of the address space of its parent: the page of the code and the first page
   of the heap. -/
namespace AddressSpace
open PageAllocator Kmalloc KmallocSlabs KmallocSafety PageRules SlabCache TableTree

variable {boot : Nat → Prop} {otherPages : List Nat} {otherBlocks : List (Nat × Nat)}
  {k k' : Kernel} {address pgd pdpt pdt : Nat} {fresh : List Nat} {last : Nat → Nat}
  {level : Nat → List Nat}

/-- The pages of an address space: those of the code and of the heap. -/
def InSpace (mm : Mm) (v : Nat) : Prop :=
  pageSize ∣ v ∧ ((codeStart ≤ v ∧ v < 0xa00000) ∨ (mm.startBrk ≤ v ∧ v < mm.endBrk))

/-- A page of the child for a page of the parent, with the same bytes. -/
def Copies (memory : TableTree.Words) (parent child v : Nat) : Prop :=
  ∃ p q, mapping memory child v = some p ∧ mapping memory parent v = some q ∧
    (∀ u, mapping memory parent u ≠ some p) ∧
    ∀ o < pageSize, memory (p + o) = memory (q + o)

def SameSpace (memory : TableTree.Words) (parent child : Mm) : Prop :=
  child.endBrk = parent.endBrk ∧ ∀ v, InSpace parent v → Copies memory parent.pgd child.pgd v

theorem Built.same_tables (built : Built k k' address pgd pdpt pdt fresh last)
    (sound : Sound boot otherPages otherBlocks k'.account) {parent : Nat}
    (space : Space k parent level) {memory : TableTree.Words}
    (same : ∀ a, Beyond [pgd, pdpt, pdt] fresh a → memory a = k.memory a) :
    SameTables format level k.memory memory := by
  intro n deep t listed i small
  have old := space.tables n deep t listed
  have held : (physToVirt t, tableBytes) ∈ k'.account.blocks := by
    rw [built.blocks]
    exact List.mem_append_right _ old
  obtain ⟨aligned, off_pages⟩ := table_place sound.toInv (List.mem_append_left _ held)
  have nodup := sound.starts_nodup
  rw [built.blocks, List.map_append] at nodup
  have apart := (List.nodup_append.mp nodup).2.2
  apply same
  refine ⟨fun u new => ?_, fun p new => ?_⟩
  · have differ : t ≠ u := by
      intro same_place
      have here : (physToVirt u, tableBytes) ∈ spaceBlocks address pgd pdpt pdt := by
        simp only [List.mem_cons, List.not_mem_nil, or_false] at new
        rcases new with rfl | rfl | rfl
        · simp [spaceBlocks]
        · simp [spaceBlocks]
        · simp [spaceBlocks]
      exact apart _ (List.mem_map_of_mem here) _ (List.mem_map_of_mem old) (by rw [same_place])
    have places := aligned_apart aligned ((built.placed sound).aligned u new) differ
    unfold slot
    unfold tableBytes at *
    omega
  · have places := off_pages p (by
      rw [built.pages]
      exact List.mem_append_left _ (List.mem_append_left _ new))
    unfold slot
    unfold tableBytes at places
    omega

theorem mapping_same (space : Space k pgd level) {memory : TableTree.Words}
    (same : SameTables format level k.memory memory) (v : Nat) :
    mapping memory pgd v = mapping k.memory pgd v := by
  unfold mapping
  by_cases user : v < userEnd
  · rw [if_pos user, if_pos user, space.pgd_base]
    exact @walk_frame _ _ _ _ format_ok space.tree same (pathOf v) 0 _ (Nat.le_refl 3)
      (path_within user) space.pgd_listed
  · rw [if_neg user, if_neg user]

theorem page_entry_odd (p : Nat) : pageEntry p % 2 ≠ 0 := by
  unfold pageEntry pageSize pageUserPage
  omega

theorem page_entry_base (p : Nat) : base (pageEntry p) = pageSize * p :=
  base_entry (page_aligned p) (by decide)

theorem Built.mapping_first (built : Built k k' address pgd pdpt pdt fresh last)
    (placed : Placed pgd pdpt pdt) {v : Nat} (low : v < 2 ^ 30) :
    mapping k'.memory pgd v =
      if last (index2M v) % 2 = 0 then none else some (base (last (index2M v))) := by
  have user : v < userEnd := Nat.lt_trans low (by decide)
  have indices : gdtIndex v = 0 ∧ index1G v = 0 ∧ index2M v < 512 := by
    unfold gdtIndex index1G index2M
    omega
  have root := built.root 0 (by omega)
  have second := built.second 0 (by omega)
  have third := built.third (index2M v) indices.2.2
  rw [if_pos rfl] at root second
  have first_odd : (pdpt + pageUserDir) % 2 ≠ 0 := by
    have aligned := placed.aligned pdpt (by simp)
    unfold Aligned tableBytes at aligned
    unfold pageUserDir
    omega
  have second_odd : (pdt + pageUserDir) % 2 ≠ 0 := by
    have aligned := placed.aligned pdt (by simp)
    unfold Aligned tableBytes at aligned
    unfold pageUserDir
    omega
  unfold mapping pathOf
  rw [if_pos user, indices.1, indices.2.1, base_aligned (placed.aligned pgd (by simp)), walk, root,
    if_neg first_odd, base_entry (placed.aligned pdpt (by simp)) (by decide), walk, second,
    if_neg second_odd, base_entry (placed.aligned pdt (by simp)) (by decide), walk, third]
  rfl

theorem Built.copies (built : Built k k' address pgd pdpt pdt fresh last)
    (sound : Sound boot otherPages otherBlocks k'.account) {parent : Nat}
    (space : Space k parent level) {v p : Nat} (low : v < 2 ^ 30) (new : p ∈ fresh)
    (entry : last (index2M v) = pageEntry p)
    (shows : Shows k k' [pgd, pdpt, pdt] fresh parent v p) :
    Copies k'.memory parent pgd v := by
  obtain ⟨memory, q, same, mapped, bytes⟩ := shows
  have after := built.same_tables sound space built.frame
  rw [mapping_same space (built.same_tables sound space same)] at mapped
  obtain ⟨-, r, held, rfl⟩ := mapping_page space mapped
  have nodup := sound.pages_nodup
  rw [built.pages] at nodup
  have apart := (List.nodup_append.mp nodup).2.2
  refine ⟨pageSize * p, pageSize * r, ?_, ?_, ?_, ?_⟩
  · rw [built.mapping_first (built.placed sound) low, entry, if_neg (page_entry_odd p),
      page_entry_base]
  · rw [mapping_same space after, mapped]
  · intro u shared
    rw [mapping_same space after] at shared
    obtain ⟨-, r', held', place⟩ := mapping_page space shared
    have same_page : p = r' := Nat.eq_of_mul_eq_mul_left (by decide) place
    exact apart p new p (same_page ▸ held') rfl
  · intro o inside
    have here : r ∈ k'.account.pages ++ otherPages := by
      rw [built.pages]
      exact List.mem_append_left _ (List.mem_append_right _ held)
    have beyond := built.page_beyond sound here (fun member => apart r member r held rfl) inside
    rw [bytes o inside, same _ beyond, built.frame _ beyond]

theorem code_page {v : Nat} (whole : pageSize ∣ v) (low : codeStart ≤ v) (high : v < 0xa00000) :
    v = codeStart := by
  unfold codeStart pageSize at *
  omega

theorem second_page_absent {last : Nat → Nat} (built : Built k k' address pgd pdpt pdt fresh last)
    (placed : Placed pgd pdpt pdt) (empty : last 7 = 0) :
    mapping k'.memory pgd (brkStart + pageSize) = none := by
  have index : index2M (brkStart + pageSize) = 7 := by decide
  rw [built.mapping_first placed (by decide), index, empty]
  rfl

theorem code_entry_code (p : Nat) : codeEntry p 4 = pageEntry p := Function.update_self ..

theorem heap_entry_code (p h : Nat) : heapEntry p h 4 = pageEntry p := by
  rw [heapEntry, Function.update_of_ne (by decide), code_entry_code]

theorem heap_entry_heap (p h : Nat) : heapEntry p h 6 = pageEntry h := Function.update_self ..

theorem code_entry_above (p : Nat) {i : Nat} (above : 4 < i) : codeEntry p i = 0 :=
  Function.update_of_ne (by omega) ..

theorem heap_entry_above (p h : Nat) {i : Nat} (above : 6 < i) : heapEntry p h i = 0 := by
  rw [heapEntry, Function.update_of_ne (by omega)]
  exact code_entry_above p (by omega)

theorem Copied.same_space {mm mm' : Mm} (sound : Sound boot otherPages otherBlocks k'.account)
    (start : mm.startBrk = brkStart)
    (copied : Copied k k' mm mm' pdpt pdt fresh last)
    (code : Copies k'.memory mm.pgd mm'.pgd codeStart)
    (heap : mm.endBrk ≠ mm.startBrk → Copies k'.memory mm.pgd mm'.pgd brkStart)
    (empty : last 7 = 0) :
    SameSpace k'.memory mm mm' ↔ mm.endBrk ≤ mm.startBrk + pageSize := by
  constructor
  · intro same
    by_contra large
    have inside : InSpace mm (brkStart + pageSize) := by
      refine ⟨by decide, Or.inr ?_⟩
      rw [start] at large ⊢
      omega
    obtain ⟨p, q, mapped, _⟩ := same.2 _ inside
    rw [second_page_absent copied.built (copied.built.placed sound) empty] at mapped
    cases mapped
  · intro small
    refine ⟨copied.end_brk, fun v inside => ?_⟩
    obtain ⟨whole, ⟨low, high⟩ | ⟨low, high⟩⟩ := inside
    · rw [code_page whole low high]
      exact code
    · have first : v = brkStart := by
        rw [start] at small low
        unfold brkStart pageSize at *
        omega
      rw [first]
      exact heap (by omega)

/-- The copy of an address space that do_execve has set up: what the heap has beyond its first
    page is missing. -/
theorem copy_mm_same_space {mm mm' : Mm} (sound : Sound boot otherPages otherBlocks k.account)
    (space : Space k mm.pgd level) (start : mm.startBrk = brkStart)
    (call : copyMm k mm = some (k', mm')) :
    SameSpace k'.memory mm mm' ↔ mm.endBrk ≤ mm.startBrk + pageSize := by
  obtain ⟨pdpt, pdt, p, sound', cases⟩ := copy_mm_spec sound call
  have code : index2M codeStart = 4 := by decide
  have brk : index2M brkStart = 6 := by decide
  rcases cases with ⟨empty, copied, shows⟩ | ⟨_, h, copied, shows, shows_heap⟩
  · refine copied.same_space sound' start ?_ (fun some_heap => absurd empty some_heap)
      (code_entry_above p (by decide))
    exact copied.built.copies sound' space (by decide) (List.mem_singleton.mpr rfl)
      (by rw [code, code_entry_code]) shows
  · refine copied.same_space sound' start ?_ (fun _ => ?_)
      (heap_entry_above p h (by decide))
    · exact copied.built.copies sound' space (by decide) (by simp)
        (by rw [code, heap_entry_code]) shows
    · exact copied.built.copies sound' space (by decide) (by simp)
        (by rw [brk, heap_entry_heap]) shows_heap

end AddressSpace

import Mathlib.Data.List.Nodup
import Q2os.PageRules
import Q2os.SlabCache

/- What the calls of the slab functions on the heap do to the blocks and pages of a cache,
   beside others that the rest of the kernel holds. -/
namespace SlabCache
open Bitmap PageAllocator PageRuns Kmalloc KmallocPages HeapInvariant KmallocSlabs KmallocSafety
  PageRules

variable {boot : Nat → Prop} {Q : Gmd → Prop} {otherPages : List Nat}
  {otherBlocks : List (Nat × Nat)}

/-- The heap's invariant, with what the cache and what the rest of the kernel holds, and a property
of the pages. -/
structure Balanced (boot : Nat → Prop) (Q : Gmd → Prop) (otherPages : List Nat)
    (otherBlocks : List (Nat × Nat)) (a : Account) : Prop extends
    Inv boot (a.pages ++ otherPages) (a.blocks ++ otherBlocks) a.heap where
  kept : Q a.heap.g

theorem inv_perm_pages {pending pages : List Nat} {extra : List (Nat × Nat)} {h : Heap}
    (same : pages.Perm pending) (inv : Inv boot pending extra h) : Inv boot pages extra h :=
  { inv with
    reserved := fun p held => inv.reserved p (held.imp_right same.mem_iff.mp)
    apart := fun p member => inv.apart p (same.mem_iff.mp member)
    pending_nodup := same.nodup_iff.mpr inv.pending_nodup
    pending_mapped := fun p member => inv.pending_mapped p (same.mem_iff.mp member) }

theorem Balanced.pages_nodup {a : Account} (balanced : Balanced boot Q otherPages otherBlocks a) :
    a.pages.Nodup :=
  (List.nodup_append.mp balanced.pending_nodup).1

theorem Balanced.starts_nodup {a : Account} (balanced : Balanced boot Q otherPages otherBlocks a) :
    (a.blocks.map Prod.fst).Nodup := by
  have distinct := balanced.distinct
  rw [List.map_append, List.map_append] at distinct
  exact (List.nodup_append.mp (List.nodup_append.mp distinct).1).1

theorem take_block_spec {a a' : Account} {size : Nat} {r : Option Nat}
    (rule : PageRule boot otherPages Q) (balanced : Balanced boot Q otherPages otherBlocks a)
    (call : takeBlock a size = some (a', r)) :
    Balanced boot Q otherPages otherBlocks a' ∧ a'.pages = a.pages ∧
      a'.blocks = withBlock a.blocks size r := by
  obtain ⟨⟨h, address⟩, called, made⟩ := Option.map_eq_some_iff.mp call
  cases made
  refine ⟨?_, rfl, rfl⟩
  have inv := (kmalloc_spec _ _ _ _ _ _ _ balanced.toInv called).1
  have kept := kmalloc_keeps rule _ _ _ _ _ _ balanced.toInv balanced.kept called
  cases address with
  | none => exact ⟨inv, kept⟩
  | some address => exact ⟨inv, kept⟩

theorem find_block {blocks : List (Nat × Nat)} {e : Nat × Nat} (nodup : (blocks.map Prod.fst).Nodup)
    (member : e ∈ blocks) : (blocks.find? fun b => b.1 = e.1) = some e := by
  induction blocks with
  | nil => cases member
  | cons b rest ih =>
    rw [List.map_cons, List.nodup_cons] at nodup
    rw [List.find?_cons]
    rcases List.mem_cons.mp member with rfl | later
    · simp
    · have other : b.1 ≠ e.1 := fun same => nodup.1 (same ▸ List.mem_map_of_mem later)
      simp only [other, decide_false]
      exact ih nodup.2 later

theorem give_block_spec {a : Account} {address n : Nat} (drop : DropRule boot otherPages Q)
    (balanced : Balanced boot Q otherPages otherBlocks a) (held : (address, n) ∈ a.blocks) :
    ∃ a', giveBlock a address = some a' ∧ Balanced boot Q otherPages otherBlocks a' ∧
      a'.pages = a.pages ∧ a'.blocks = a.blocks.erase (address, n) := by
  have found := find_block balanced.starts_nodup held
  have front : ((address, n) :: (a.blocks.erase (address, n) ++ otherBlocks)).Perm
      (a.blocks ++ otherBlocks) :=
    (List.perm_cons_erase held).symm.append_right otherBlocks
  have moved := inv_perm front balanced.toInv
  obtain ⟨h, r, called, inv⟩ := kfree_spec n boot (a.pages ++ otherPages) (address, n)
    (a.blocks.erase (address, n) ++ otherBlocks) a.heap (Nat.le_refl n) moved
  have kept := kfree_keeps drop n _ (address, n) _ _ _ _ (fun p => List.mem_append_right _)
    (Nat.le_refl n) moved balanced.kept called
  refine ⟨{ a with heap := h, blocks := a.blocks.erase (address, n) }, ?_, ⟨inv, kept⟩, rfl, rfl⟩
  unfold giveBlock
  rw [found, Option.bind_some, called, Option.map_some]

theorem take_page_spec {a a' : Account} {page : Nat} (rule : PageRule boot otherPages Q)
    (balanced : Balanced boot Q otherPages otherBlocks a) (call : takePage a = some (a', page)) :
    Balanced boot Q otherPages otherBlocks a' ∧ a'.pages = page :: a.pages ∧
      a'.blocks = a.blocks ∧ (a'.heap.g.pages page).phyAddress = pageSize * page := by
  unfold takePage at call
  generalize requested : allocPages a.heap.g zoneNormal 1 = r at call
  obtain ⟨g, found⟩ := r
  cases found with
  | none => cases call
  | some p =>
    cases call
    have inv := request_page_inv balanced.toInv requested pgKernel
    have kept := rule.take _ _ _ balanced.pages requested balanced.kept
    exact ⟨⟨inv, kept⟩, rfl, rfl, inv.pending_mapped page List.mem_cons_self⟩

theorem clean_page_inv {pending : List Nat} {extra : List (Nat × Nat)} {h : Heap} (page : Nat)
    (inv : Inv boot pending extra h) :
    Inv boot pending extra { h with g := pageClean h.g page } := by
  refine inv_of_pages inv (page_clean_layout _ page) (page_clean_pages page inv.pages)
    ?_ ?_ inv.apart inv.pending_nodup inv.pending_mapped
  · intro i hi s hs
    rw [page_clean_bits]
    exact (inv.slab_ok i hi s hs).marked
  · intro p held
    rw [page_clean_bits]
    exact inv.reserved p held

theorem free_page_inv {a : Account} {page : Nat}
    (inv : Inv boot (a.pages ++ otherPages) (a.blocks ++ otherBlocks) a.heap)
    (held : page ∈ a.pages) :
    ∃ a', freePage a page = some a' ∧
      Inv boot (a'.pages ++ otherPages) (a'.blocks ++ otherBlocks) a'.heap ∧
      a'.heap.g = freePages a.heap.g (some page) 1 ∧ a'.pages = a.pages.erase page ∧
      a'.blocks = a.blocks := by
  have front : (page :: (a.pages.erase page ++ otherPages)).Perm (a.pages ++ otherPages) :=
    (List.perm_cons_erase held).symm.append_right otherPages
  have moved := inv_perm_pages front inv
  have kept := returned_page_inv moved
    (release_one moved.pages (moved.pending_mapped page List.mem_cons_self))
  exact ⟨_, if_pos held, kept, rfl, rfl, rfl⟩

theorem drop_page_spec {a : Account} {page : Nat} (rule : PageRule boot otherPages Q)
    (balanced : Balanced boot Q otherPages otherBlocks a) (held : page ∈ a.pages) :
    ∃ a', freePage (cleanPage a page) page = some a' ∧ Balanced boot Q otherPages otherBlocks a' ∧
      a'.pages = a.pages.erase page ∧ a'.blocks = a.blocks := by
  have front : (page :: (a.pages.erase page ++ otherPages)).Perm (a.pages ++ otherPages) :=
    (List.perm_cons_erase held).symm.append_right otherPages
  have own := own_page (inv_perm_pages front balanced.toInv)
    (fun p (member : p ∈ otherPages) => List.mem_append_right _ member)
  obtain ⟨a', freed, inv, same, pages, blocks⟩ :=
    @free_page_inv _ _ _ (cleanPage a page) _ (clean_page_inv page balanced.toInv) held
  have kept := rule.drop _ _ balanced.pages own balanced.kept
  exact ⟨a', freed, ⟨inv, same ▸ kept⟩, pages, blocks⟩

/- A slab of its own page and blocks. -/
structure SlabBlocks (a : Account) (s : Nat) (v : Slab) : Prop where
  page : v.page ∈ a.pages
  struct : (s, slabBytes) ∈ a.blocks
  map : (v.colorMap, v.colorLength) ∈ a.blocks.erase (s, slabBytes)

theorem release_slab_spec {a : Account} {s : Nat} {v : Slab} (rule : PageRule boot otherPages Q)
    (balanced : Balanced boot Q otherPages otherBlocks a) (own : SlabBlocks a s v) :
    ∃ a', releaseSlab a s v = some a' ∧ Balanced boot Q otherPages otherBlocks a' ∧
      a'.pages = a.pages.erase v.page ∧
      a'.blocks = (a.blocks.erase (s, slabBytes)).erase (v.colorMap, v.colorLength) := by
  obtain ⟨a₁, first, balanced₁, pages₁, blocks₁⟩ :=
    give_block_spec rule.drop balanced (List.mem_of_mem_erase own.map)
  have page : v.page ∈ a₁.pages := by
    rw [pages₁]
    exact own.page
  obtain ⟨a₂, second, balanced₂, pages₂, blocks₂⟩ := drop_page_spec rule balanced₁ page
  have same : a₂.blocks = a.blocks.erase (v.colorMap, v.colorLength) := blocks₂.trans blocks₁
  have swapped : (a.blocks.erase (v.colorMap, v.colorLength)).erase (s, slabBytes) =
      (a.blocks.erase (s, slabBytes)).erase (v.colorMap, v.colorLength) := List.erase_comm ..
  have other : (s, slabBytes) ≠ (v.colorMap, v.colorLength) := by
    intro same
    have nodup := List.Nodup.of_map _ balanced.starts_nodup
    have again := own.map
    rw [← same] at again
    exact List.Nodup.not_mem_erase nodup again
  have struct : (s, slabBytes) ∈ a₂.blocks := by
    rw [same]
    exact (List.mem_erase_of_ne other).mpr own.struct
  obtain ⟨a₃, third, balanced₃, pages₃, blocks₃⟩ := give_block_spec rule.drop balanced₂ struct
  refine ⟨a₃, ?_, balanced₃, ?_, ?_⟩
  · unfold releaseSlab
    rw [first]
    change (freePage (cleanPage a₁ v.page) v.page).bind (giveBlock · s) = some a₃
    rw [second]
    exact third
  · rw [pages₃, pages₂]
    exact congrArg (List.erase · v.page) pages₁
  · rw [blocks₃, same, swapped]

/- What makeSlab hands out. -/
structure FreshSlab (a : Account) (usingCount count : Nat) (a' : Account) (s : Nat) (v : Slab) :
    Prop where
  blocks : a'.blocks = (v.colorMap, v.colorLength) :: (s, slabBytes) :: a.blocks
  pages : a'.pages = v.page :: a.pages
  mapped : v.vaddress = physToVirt (pageSize * v.page)
  using_count : v.usingCount = usingCount
  free_count : v.freeCount = count
  color_count : v.colorCount = count
  color_length : v.colorLength = colorLengthOf count
  colors : v.colors = fun _ => 0

/- makeSlab gets its first block and its page, and then no color map. -/
def MapRefused (a : Account) (count : Nat) : Prop :=
  ∃ a₁ slab a₂ page a₃, takeBlock a slabBytes = some (a₁, some slab) ∧
    takePage a₁ = some (a₂, page) ∧ takeBlock a₂ (colorLengthOf count) = some (a₃, none)

/- The property also allows to give a page back without a page_clean. -/
def Spares (Q : Gmd → Prop) : Prop := ∀ g page, Q g → Q (freePages g (some page) 1)

theorem make_slab_spec {a a' : Account} {usingCount count : Nat} {made : Option (Nat × Slab)}
    (rule : PageRule boot otherPages Q) (spares : MapRefused a count → Spares Q)
    (balanced : Balanced boot Q otherPages otherBlocks a)
    (call : makeSlab a usingCount count = some (a', made)) :
    Balanced boot Q otherPages otherBlocks a' ∧
      (made = none → a'.blocks = a.blocks ∧ a'.pages = a.pages) ∧
      ∀ s v, made = some (s, v) → FreshSlab a usingCount count a' s v := by
  obtain ⟨⟨a₁, slab⟩, first, call⟩ := Option.bind_eq_some_iff.mp call
  obtain ⟨balanced₁, pages₁, blocks₁⟩ := take_block_spec rule balanced first
  cases slab with
  | none =>
    cases call
    exact ⟨balanced₁, fun _ => ⟨blocks₁, pages₁⟩, nofun⟩
  | some slab =>
    dsimp only at call
    have struct : (slab, slabBytes) ∈ a₁.blocks := by
      rw [blocks₁]
      exact List.mem_cons_self
    cases requested : takePage a₁ with
    | none =>
      rw [requested] at call
      obtain ⟨a₂, given, call⟩ := Option.bind_eq_some_iff.mp call
      obtain ⟨a₂', same, balanced₂, pages₂, blocks₂⟩ := give_block_spec rule.drop balanced₁ struct
      rw [given] at same
      cases same
      cases call
      refine ⟨balanced₂, fun _ => ⟨?_, pages₂.trans pages₁⟩, nofun⟩
      rw [blocks₂, blocks₁]
      exact List.erase_cons_head ..
    | some r =>
      obtain ⟨a₂, page⟩ := r
      obtain ⟨balanced₂, pages₂, blocks₂, address⟩ := take_page_spec rule balanced₁ requested
      rw [requested] at call
      dsimp only at call
      obtain ⟨⟨a₃, map⟩, second, call⟩ := Option.bind_eq_some_iff.mp call
      obtain ⟨balanced₃, pages₃, blocks₃⟩ := take_block_spec rule balanced₂ second
      cases map with
      | none =>
        dsimp only at call
        have held : page ∈ a₃.pages := by
          rw [pages₃, pages₂]
          exact List.mem_cons_self
        have refused : MapRefused a count := ⟨a₁, slab, a₂, page, a₃, first, requested, second⟩
        obtain ⟨a₄, freed, inv₄, same₄, pages₄, blocks₄⟩ := free_page_inv balanced₃.toInv held
        have kept₄ := spares refused _ page balanced₃.kept
        have balanced₄ : Balanced boot Q otherPages otherBlocks a₄ := ⟨inv₄, same₄ ▸ kept₄⟩
        have still : (slab, slabBytes) ∈ a₄.blocks := by
          rw [blocks₄, blocks₃]
          exact blocks₂ ▸ struct
        obtain ⟨a₅, given, balanced₅, pages₅, blocks₅⟩ := give_block_spec rule.drop balanced₄ still
        have ended : some (a₅, none) = some (a', made) := by
          rw [← call, freed]
          change _ = (giveBlock a₄ slab).bind fun a => some (a, none)
          rw [given]
          rfl
        cases ended
        refine ⟨balanced₅, fun _ => ⟨?_, ?_⟩, nofun⟩
        · rw [blocks₅, blocks₄, blocks₃]
          have same : withBlock a₂.blocks (colorLengthOf count) none = (slab, slabBytes) :: a.blocks :=
            blocks₂.trans blocks₁
          rw [same]
          exact List.erase_cons_head ..
        · rw [pages₅, pages₄, pages₃, pages₂, pages₁]
          exact List.erase_cons_head ..
      | some map =>
        cases call
        refine ⟨balanced₃, nofun, fun s v same => ?_⟩
        cases same
        refine ⟨?_, ?_, ?_, rfl, rfl, rfl, rfl, rfl⟩
        · rw [blocks₃, blocks₂, blocks₁]
          rfl
        · rw [pages₃, pages₂, pages₁]
        · exact congrArg physToVirt address

end SlabCache

import Q2os.ForkRuns
import Q2os.PageUse

/- The calls on address spaces as runs of kmalloc, kfree, alloc_pages and free_pages on what is
   held. -/
namespace AddressSpace
open Bitmap PageAllocator PageRuns Kmalloc KmallocPages HeapInvariant KmallocSlots KmallocSlabs
  KmallocSafety PageRules PageUse SlabCache TableTree Run

def Takes (_ : Account) : OtherCall → Prop
  | .kmalloc _ => True
  | .kfree _ => False
  | .allocPages => True
  | .freePages _ => False

/-- Only kmalloc and alloc_pages lie between two accounts. -/
def TakenFrom (a a' : Account) : Prop := ∃ es, Steps (Guarded Takes OtherStep) a es a'

theorem taken_refl (a : Account) : TakenFrom a a := ⟨[], .nil a⟩

theorem taken_trans {a b c : Account} (first : TakenFrom a b) (second : TakenFrom b c) :
    TakenFrom a c := by
  obtain ⟨es, run⟩ := first
  obtain ⟨fs, rest⟩ := second
  exact ⟨es ++ fs, steps_append run rest⟩

theorem taken_block {a a' : Account} {size : Nat} {r : Option Nat}
    (call : takeBlock a size = some (a', r)) : TakenFrom a a' :=
  ⟨_, steps_single ⟨.kmalloc call, trivial⟩⟩

variable {k k' : Kernel}

theorem take_table_taken {t : Nat} (call : takeTable k = some (k', t)) :
    TakenFrom k.account k'.account := by
  unfold takeTable at call
  split at call
  · next taken =>
    cases call
    exact taken_block taken
  · cases call

theorem take_mm_taken {t : Nat} (call : takeMm k = some (k', t)) :
    TakenFrom k.account k'.account := by
  unfold takeMm at call
  split at call
  · next taken =>
    cases call
    exact taken_block taken
  · cases call

theorem link_table_taken {tmp : Nat} (call : linkTable k tmp = some k') :
    TakenFrom k.account k'.account := by
  obtain ⟨⟨k₁, t⟩, taken, made⟩ := Option.map_eq_some_iff.mp call
  have first := take_table_taken taken
  rw [← made]
  exact first

theorem ensure_table_taken {tmp : Nat} (call : ensureTable k tmp = some k') :
    TakenFrom k.account k'.account := by
  unfold ensureTable at call
  split at call
  · exact link_table_taken call
  · cases call
    exact taken_refl _

theorem link_page_taken {tmp phy : Nat} (call : linkPage k tmp = some (k', phy)) :
    TakenFrom k.account k'.account := by
  obtain ⟨⟨a, p⟩, taken, made⟩ := Option.map_eq_some_iff.mp call
  cases made
  exact ⟨_, steps_single ⟨.allocPages taken, trivial⟩⟩

theorem copy_page_account {pgd v target : Nat} (call : copyPage k pgd v target = some k') :
    k'.account = k.account := by
  obtain ⟨q, _, made⟩ := Option.map_eq_some_iff.mp call
  rw [← made]

theorem map_page_taken {pgd v : Nat} {ok : Bool} (call : mapPage k pgd v = some (k', ok)) :
    TakenFrom k.account k'.account := by
  obtain ⟨k₁, first, call⟩ := Option.bind_eq_some_iff.mp call
  obtain ⟨k₂, second, call⟩ := Option.bind_eq_some_iff.mp call
  have tables := taken_trans (ensure_table_taken first) (ensure_table_taken second)
  dsimp only at call
  split at call
  · split at call
    · cases call
      exact tables
    · next linked =>
      cases call
      exact taken_trans tables (link_page_taken linked)
  · cases call
    exact tables

theorem brk_pages_taken {pgd n i r : Nat} (call : brkPages k pgd n i = some (k', r)) :
    TakenFrom k.account k'.account := by
  induction n generalizing k i with
  | zero =>
    cases call
    exact taken_refl _
  | succ n ih =>
    rw [brkPages] at call
    split at call
    · obtain ⟨⟨k₁, ok⟩, mapped, call⟩ := Option.bind_eq_some_iff.mp call
      have first := map_page_taken mapped
      cases ok with
      | false =>
        cases call
        exact first
      | true => exact taken_trans first (ih call)
    · cases call

theorem sys_brk_taken {mm mm' : Mm} {n r : Nat} (call : sysBrk k mm n = some (k', mm', r)) :
    TakenFrom k.account k'.account := by
  unfold sysBrk at call
  dsimp only at call
  split at call
  · cases call
    exact taken_refl _
  · split at call
    · cases call
      exact taken_refl _
    · obtain ⟨⟨k₁, e⟩, grown, made⟩ := Option.map_eq_some_iff.mp call
      cases made
      exact brk_pages_taken grown

theorem copy_mm_taken {mm mm' : Mm} (call : copyMm k mm = some (k', mm')) :
    TakenFrom k.account k'.account := by
  obtain ⟨⟨k₁, address⟩, step₁, call⟩ := Option.bind_eq_some_iff.mp call
  obtain ⟨⟨k₂, pgd⟩, step₂, call⟩ := Option.bind_eq_some_iff.mp call
  dsimp only at call
  obtain ⟨k₃, step₃, call⟩ := Option.bind_eq_some_iff.mp call
  obtain ⟨k₄, step₄, call⟩ := Option.bind_eq_some_iff.mp call
  obtain ⟨⟨k₅, phy⟩, step₅, call⟩ := Option.bind_eq_some_iff.mp call
  obtain ⟨k₆, step₆, call⟩ := Option.bind_eq_some_iff.mp call
  have blocks := taken_trans (take_mm_taken step₁) (take_table_taken step₂)
  have third := link_table_taken step₃
  have tables := taken_trans blocks (taken_trans third (link_table_taken step₄))
  have page := taken_trans tables (link_page_taken step₅)
  rw [← copy_page_account step₆] at page
  split at call
  · obtain ⟨⟨k₇, phy⟩, step₇, call⟩ := Option.bind_eq_some_iff.mp call
    obtain ⟨k₈, step₈, call⟩ := Option.bind_eq_some_iff.mp call
    cases call
    rw [copy_page_account step₈]
    exact taken_trans page (link_page_taken step₇)
  · cases call
    exact page

theorem do_fork_taken {t : Task} {cloneVm : Bool} {r : Option Task}
    (call : doFork k t cloneVm = some (k', r)) : TakenFrom k.account k'.account := by
  obtain ⟨⟨a, r'⟩, taken, call⟩ := Option.bind_eq_some_iff.mp call
  have first := taken_block taken
  cases r' with
  | none =>
    cases call
    exact first
  | some address =>
    dsimp only at call
    split at call
    · cases call
      exact first
    · obtain ⟨⟨k₁, mm⟩, copied, call⟩ := Option.bind_eq_some_iff.mp call
      cases call
      exact taken_trans first (copy_mm_taken copied)

/- What a run takes and gives back. -/

variable {boot : Nat → Prop} {otherPages : List Nat} {otherBlocks : List (Nat × Nat)}
  {a a' : Account}

/-- The heap keeps its invariant, and nothing else is marked in use. -/
structure Tracked (boot : Nat → Prop) (otherBlocks : List (Nat × Nat)) (a : Account) : Prop where
  sound : Sound boot [] otherBlocks a
  known : Known boot a.pages a.heap

theorem freed_known {page : Nat} (inv : Inv boot (a.pages ++ []) (a.blocks ++ otherBlocks) a.heap)
    (known : Known boot a.pages a.heap) (held : page ∈ a.pages)
    (call : freePage a page = some a') : Known boot a'.pages a'.heap := by
  unfold freePage at call
  rw [if_pos held] at call
  cases call
  have mapped := inv.pending_mapped page (List.mem_append_left _ held)
  have front : ∀ p ∈ a.pages, p ∈ page :: a.pages.erase page := fun p member =>
    (List.perm_cons_erase held).mem_iff.mp member
  exact returned_page_known (release_one inv.pages mapped).bits (known_perm front known)

theorem other_step_tracked {e : OtherCall} (tracked : Tracked boot otherBlocks a)
    (step : OtherStep a e a') : Tracked boot otherBlocks a' := by
  have known := tracked.known
  have inv := tracked.sound.toInv
  rw [List.append_nil] at inv
  refine ⟨other_step_sound tracked.sound step, ?_⟩
  cases step with
  | kmalloc call =>
    obtain ⟨⟨h, address⟩, called, made⟩ := Option.map_eq_some_iff.mp call
    cases made
    exact kmalloc_known _ _ _ _ _ _ _ inv known called
  | @kfree _ e held call =>
    have found := find_block tracked.sound.starts_nodup held
    unfold giveBlock at call
    rw [found, Option.bind_some] at call
    obtain ⟨⟨h, r⟩, called, made⟩ := Option.map_eq_some_iff.mp call
    cases made
    have front : (e :: (a.blocks.erase e ++ otherBlocks)).Perm (a.blocks ++ otherBlocks) :=
      (List.perm_cons_erase held).symm.append_right otherBlocks
    exact kfree_known e.2 _ _ e _ _ _ _ (Nat.le_refl _) (inv_perm front inv) known called
  | @allocPages _ page call =>
    unfold allocPage at call
    generalize requested : allocPages a.heap.g zoneNormal 1 = r at call
    obtain ⟨g, found⟩ := r
    cases found with
    | none => cases call
    | some page =>
      cases call
      exact taken_page_known (alloc_one tracked.sound.pages requested).bits known
  | freePages held call => exact freed_known tracked.sound.toInv known held call

theorem taken_tracked (tracked : Tracked boot otherBlocks a) (taken : TakenFrom a a') :
    Tracked boot otherBlocks a' := by
  obtain ⟨es, run⟩ := taken
  exact @invariant_of_step _ _ _ (Tracked boot otherBlocks)
    (fun _ _ _ before step => other_step_tracked before step.1) _ _ _ run tracked

theorem taken_grows (sound : Sound boot otherPages otherBlocks a) (taken : TakenFrom a a') :
    ∃ blocks pages, a'.blocks = blocks ++ a.blocks ∧ a'.pages = pages ++ a.pages := by
  obtain ⟨es, run⟩ := taken
  induction run with
  | nil => exact ⟨[], [], rfl, rfl⟩
  | @cons a a₁ a₂ e es step _ ih =>
    obtain ⟨step, takes⟩ := step
    obtain ⟨blocks, pages, more_blocks, more_pages⟩ := ih (other_step_sound sound step)
    cases step with
    | @kmalloc _ size r call =>
      obtain ⟨_, same, grown⟩ := take_block_spec (no_rule _ _) sound call
      rw [same] at more_pages
      cases r with
      | none =>
        rw [grown] at more_blocks
        exact ⟨blocks, pages, more_blocks, more_pages⟩
      | some address =>
        rw [grown, withBlock, List.append_cons] at more_blocks
        exact ⟨_, pages, more_blocks, more_pages⟩
    | kfree => exact absurd takes id
    | allocPages call =>
      obtain ⟨_, grown, same, _⟩ := alloc_page_spec sound call
      rw [same] at more_blocks
      rw [grown, List.append_cons] at more_pages
      exact ⟨blocks, _, more_blocks, more_pages⟩
    | freePages => exact absurd takes id

theorem kfree_inside {pending : List Nat} {extra : List (Nat × Nat)} {h : Heap} {e : Nat × Nat}
    {i s j o : Nat} (inv : Inv boot pending extra h) (block : Occupied h e i s j)
    (inside : o < cacheSize i) : kfree h (e.1 + o) = kfree h e.1 := by
  have ok := inv.slab_ok i block.cache s block.listed
  have last := slot_end (i := i) block.slot
  have slots := ok.slots
  have positive := cacheSize_pos i
  have at_slot : e.1 - (h.slab s).vaddress = cacheSize i * j := by
    rw [block.address]
    omega
  have at_offset : e.1 + o - (h.slab s).vaddress = cacheSize i * j + o := by
    rw [block.address]
    omega
  have page : (e.1 + o) / pageSize * pageSize = e.1 / pageSize * pageSize := by
    rw [block.address, ok.mapped, base_of_address (by omega), Nat.add_assoc,
      base_of_address (by omega)]
  have index : (e.1 + o - (h.slab s).vaddress) / cacheSize i =
      (e.1 - (h.slab s).vaddress) / cacheSize i := by
    rw [at_slot, at_offset, Nat.mul_add_div positive, Nat.div_eq_of_lt inside,
      Nat.mul_div_cancel_left j positive, Nat.add_zero]
  have slot : releaseSlot h i s (e.1 + o) = releaseSlot h i s e.1 := by
    unfold releaseSlot
    dsimp only
    rw [index]
  change kfreeBody _ h (e.1 + o) = kfreeBody _ h e.1
  unfold kfreeBody
  rw [page, find_slab_block inv block]
  dsimp only
  rw [slot]

/-- To free an address inside a block is to free the block. -/
theorem give_inside_eq {e : Nat × Nat} {o : Nat} (sound : Sound boot otherPages otherBlocks a)
    (held : e ∈ a.blocks) (inside : o < e.2) : giveInside a (e.1 + o) = giveBlock a e.1 := by
  have inv := sound.toInv
  obtain ⟨i, s, j, block⟩ := inv.occupied e
    (List.mem_append_left _ (List.mem_append_left _ held))
  have fits := block.fits
  have found : (a.blocks.find? fun b => b.1 ≤ e.1 + o ∧ e.1 + o < b.1 + b.2) = some e := by
    cases search : a.blocks.find? fun b => b.1 ≤ e.1 + o ∧ e.1 + o < b.1 + b.2 with
    | none =>
      have other := List.find?_eq_none.mp search e held
      simp only [Nat.le_add_right, Nat.add_lt_add_iff_left, true_and, decide_eq_true_eq] at other
      exact absurd inside other
    | some b =>
      have within := List.find?_some search
      simp only [decide_eq_true_eq] at within
      have listed := List.mem_of_find?_eq_some search
      obtain ⟨k, t, l, other⟩ := inv.occupied b
        (List.mem_append_left _ (List.mem_append_left _ listed))
      have fits' := other.fits
      have here : PageRuns.Within ((a.heap.slab s).vaddress + cacheSize i * j) (cacheSize i)
          (e.1 + o) := by
        rw [← block.address]
        exact ⟨by omega, by omega⟩
      have there : PageRuns.Within ((a.heap.slab t).vaddress + cacheSize k * l) (cacheSize k)
          (e.1 + o) := by
        rw [← other.address]
        exact ⟨by omega, by omega⟩
      obtain ⟨rfl, rfl, rfl⟩ := slot_unique inv block.cache other.cache block.listed other.listed
        block.slot other.slot here there
      have same : b.1 = e.1 := other.address.trans block.address.symm
      have by_start := find_block sound.starts_nodup held
      have by_start' := find_block sound.starts_nodup listed
      rw [same, by_start] at by_start'
      rw [Option.some.inj by_start']
  unfold giveInside giveBlock
  rw [found, find_block sound.starts_nodup held, Option.bind_some, Option.bind_some,
    kfree_inside inv block (Nat.lt_of_lt_of_le inside fits)]

theorem give_inside_step {x : Nat} (sound : Sound boot otherPages otherBlocks a)
    (call : giveInside a x = some a') :
    ∃ e ∈ a.blocks, OtherStep a (.kfree e.1) a' ∧ a'.pages = a.pages ∧
      a'.blocks = a.blocks.erase e := by
  have some_block := call
  unfold giveInside at some_block
  obtain ⟨e, found, _⟩ := Option.bind_eq_some_iff.mp some_block
  have held := List.mem_of_find?_eq_some found
  have within := List.find?_some found
  simp only [decide_eq_true_eq] at within
  have offset : x = e.1 + (x - e.1) := by omega
  rw [offset, give_inside_eq sound held (by omega)] at call
  obtain ⟨a'', given, _, pages, blocks⟩ :=
    give_block_spec (n := e.2) (no_rule _ _).drop sound held
  rw [given] at call
  cases call
  exact ⟨e, held, .kfree held given, pages, blocks⟩

/-- Each kfree gives back one block, each free_pages one page. -/
theorem give_inside_less {x : Nat} (tracked : Tracked boot otherBlocks a)
    (call : giveInside a x = some a') : Tracked boot otherBlocks a' ∧ a'.pages = a.pages ∧
      a.blocks.length = a'.blocks.length + 1 := by
  obtain ⟨e, held, step, pages, blocks⟩ := give_inside_step tracked.sound call
  have less := List.length_erase_add_one held
  rw [← blocks] at less
  exact ⟨other_step_tracked tracked step, pages, less.symm⟩

theorem free_page_less {page : Nat} (tracked : Tracked boot otherBlocks a)
    (call : freePage a page = some a') : Tracked boot otherBlocks a' ∧ a'.blocks = a.blocks ∧
      a.pages.length = a'.pages.length + 1 := by
  by_cases held : page ∈ a.pages
  · have after := other_step_tracked tracked (.freePages held call)
    unfold freePage at call
    rw [if_pos held] at call
    cases call
    exact ⟨after, rfl, (List.length_erase_add_one held).symm⟩
  · unfold freePage at call
    rw [if_neg held] at call
    cases call

/-- What sys_wait4 can give back of a child. -/
theorem wait_less {child : Task} (tracked : Tracked boot otherBlocks k.account)
    (call : waitChild k child = some k') : Tracked boot otherBlocks k'.account ∧
      k.account.blocks.length ≤ k'.account.blocks.length + 5 ∧
      k.account.pages.length ≤ k'.account.pages.length + 1 ∧
      (child.flags &&& pfVfork ≠ 0 → k'.account.pages = k.account.pages) := by
  obtain ⟨a, left, call⟩ := Option.bind_eq_some_iff.mp call
  obtain ⟨a₆, stack, call⟩ := Option.bind_eq_some_iff.mp call
  cases call
  unfold exitMm at left
  split at left
  · cases left
    obtain ⟨tracked₆, pages₆, blocks₆⟩ := give_inside_less tracked stack
    refine ⟨tracked₆, ?_, ?_, fun _ => pages₆⟩
    · dsimp only
      omega
    · dsimp only
      rw [pages₆]
      omega
  · next plain =>
    obtain ⟨a₄, tables, mm⟩ := Option.bind_eq_some_iff.mp left
    have before : Tracked boot otherBlocks a₄ ∧
        k.account.blocks.length ≤ a₄.blocks.length + 3 ∧
        k.account.pages.length ≤ a₄.pages.length + 1 := by
      split at tables
      · obtain ⟨a₁, step₁, tables⟩ := Option.bind_eq_some_iff.mp tables
        obtain ⟨a₂, step₂, tables⟩ := Option.bind_eq_some_iff.mp tables
        obtain ⟨a₃, step₃, step₄⟩ := Option.bind_eq_some_iff.mp tables
        obtain ⟨tracked₁, blocks₁, pages₁⟩ := free_page_less tracked step₁
        obtain ⟨tracked₂, pages₂, blocks₂⟩ := give_inside_less tracked₁ step₂
        obtain ⟨tracked₃, pages₃, blocks₃⟩ := give_inside_less tracked₂ step₃
        obtain ⟨tracked₄, pages₄, blocks₄⟩ := give_inside_less tracked₃ step₄
        refine ⟨tracked₄, ?_, ?_⟩
        · rw [← blocks₁]
          omega
        · rw [pages₄, pages₃, pages₂]
          omega
      · cases tables
        exact ⟨tracked, by omega, by omega⟩
    obtain ⟨tracked₄, blocks₄, pages₄⟩ := before
    obtain ⟨tracked₅, pages₅, blocks₅⟩ := give_inside_less tracked₄ mm
    obtain ⟨tracked₆, pages₆, blocks₆⟩ := give_inside_less tracked₅ stack
    refine ⟨tracked₆, ?_, ?_, fun vfork => absurd vfork plain⟩
    · dsimp only
      omega
    · dsimp only
      rw [pages₆, pages₅]
      exact pages₄

end AddressSpace

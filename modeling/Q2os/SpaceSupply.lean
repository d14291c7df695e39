import Q2os.ForkCopy
import Q2os.SlabCacheRuns

/- Where the caches of kmalloc and the pages suffice, the calls on address spaces succeed. -/
namespace AddressSpace
open PageAllocator Kmalloc KmallocSlabs KmallocSafety PageRules SlabCache TableTree

/- Pages that are handed out one after the other. -/
def PagesLeft (g : Gmd) : Nat → Prop
  | 0 => True
  | n + 1 => (allocPages g zoneNormal 1).2.isSome = true ∧
      PagesLeft (allocPages g zoneNormal 1).1 n

instance decidablePagesLeft : (n : Nat) → (g : Gmd) → Decidable (PagesLeft g n)
  | 0, _ => inferInstanceAs (Decidable True)
  | n + 1, g => @instDecidableAnd _ _ inferInstance (decidablePagesLeft n (allocPages g zoneNormal 1).1)

/-- Free objects of the caches of 128, 4096 and 32768 bytes, and free pages. -/
structure Stocked (h : Heap) (mms tables tasks pages : Nat) : Prop where
  mm : mms ≤ h.totalFree 2
  table : tables ≤ h.totalFree 7
  stack : tasks ≤ h.totalFree 10
  pages : PagesLeft h.g pages

variable {boot : Nat → Prop} {otherPages : List Nat} {otherBlocks : List (Nat × Nat)}
  {k k' : Kernel} {mms tables tasks pages : Nat}

theorem Stocked.take_mm {h h' : Heap} (stocked : Stocked h (mms + 1) tables tasks pages)
    (slot : TakesSlot h h' 2) : Stocked h' mms tables tasks pages := by
  have count := stocked.mm
  have here := slot.here
  refine ⟨by omega, ?_, ?_, ?_⟩
  · exact (slot.away 7 (by decide)) ▸ stocked.table
  · exact (slot.away 10 (by decide)) ▸ stocked.stack
  · exact slot.g ▸ stocked.pages

theorem Stocked.take_table {h h' : Heap} (stocked : Stocked h mms (tables + 1) tasks pages)
    (slot : TakesSlot h h' 7) : Stocked h' mms tables tasks pages := by
  have count := stocked.table
  have here := slot.here
  refine ⟨?_, by omega, ?_, ?_⟩
  · exact (slot.away 2 (by decide)) ▸ stocked.mm
  · exact (slot.away 10 (by decide)) ▸ stocked.stack
  · exact slot.g ▸ stocked.pages

theorem take_mm_some (sound : Sound boot otherPages otherBlocks k.account)
    (stocked : Stocked k.account.heap (mms + 1) tables tasks pages) :
    ∃ k' address, takeMm k = some (k', address) ∧
      Stocked k'.account.heap mms tables tasks pages := by
  have sized : sizeClass mmBytes = 2 := by decide
  have count := stocked.mm
  obtain ⟨a, address, call, slot⟩ := @take_block_some _ _ _ _ _ mmBytes sound (by decide)
    (by rw [sized]; omega)
  rw [sized] at slot
  refine ⟨{ k with account := a }, address, ?_, stocked.take_mm slot⟩
  unfold takeMm
  rw [call]

theorem take_mm_slot {address : Nat} (sound : Sound boot otherPages otherBlocks k.account)
    (stocked : Stocked k.account.heap (mms + 1) tables tasks pages)
    (call : takeMm k = some (k', address)) : TakesSlot k.account.heap k'.account.heap 2 := by
  have count := stocked.mm
  have sized : sizeClass mmBytes = 2 := by decide
  obtain ⟨a, _, taken, slot⟩ := @take_block_some _ _ _ _ _ mmBytes sound (by decide)
    (by rw [sized]; omega)
  unfold takeMm at call
  rw [taken] at call
  cases call
  exact slot

theorem take_table_some (sound : Sound boot otherPages otherBlocks k.account)
    (stocked : Stocked k.account.heap mms (tables + 1) tasks pages) :
    ∃ k' t, takeTable k = some (k', t) ∧ Stocked k'.account.heap mms tables tasks pages := by
  have sized : sizeClass tableBytes = 7 := by decide
  have count := stocked.table
  obtain ⟨a, address, call, slot⟩ := @take_block_some _ _ _ _ _ tableBytes sound (by decide)
    (by rw [sized]; omega)
  rw [sized] at slot
  refine ⟨{ k with account := a }, address - pageOffset, ?_, stocked.take_table slot⟩
  unfold takeTable
  rw [call]

theorem take_table_slot {t : Nat} (sound : Sound boot otherPages otherBlocks k.account)
    (stocked : Stocked k.account.heap mms (tables + 1) tasks pages)
    (call : takeTable k = some (k', t)) : TakesSlot k.account.heap k'.account.heap 7 := by
  have count := stocked.table
  have sized : sizeClass tableBytes = 7 := by decide
  obtain ⟨a, _, taken, slot⟩ := @take_block_some _ _ _ _ _ tableBytes sound (by decide)
    (by rw [sized]; omega)
  unfold takeTable at call
  rw [taken] at call
  cases call
  exact slot

theorem link_table_slot {tmp : Nat} (sound : Sound boot otherPages otherBlocks k.account)
    (stocked : Stocked k.account.heap mms (tables + 1) tasks pages)
    (call : linkTable k tmp = some k') : TakesSlot k.account.heap k'.account.heap 7 := by
  obtain ⟨⟨k₁, t⟩, taken, made⟩ := Option.map_eq_some_iff.mp call
  rw [← made]
  exact @take_table_slot _ _ _ _ k₁ _ _ _ _ _ sound stocked taken

theorem take_stack_some {a : Account} (sound : Sound boot otherPages otherBlocks a)
    (stocked : Stocked a.heap mms tables (tasks + 1) pages) :
    ∃ a' address, takeBlock a stackSize = some (a', some address) ∧
      Stocked a'.heap mms tables tasks pages := by
  have sized : sizeClass stackSize = 10 := by decide
  have count := stocked.stack
  obtain ⟨a', address, call, slot⟩ := @take_block_some _ _ _ _ _ stackSize sound (by decide)
    (by rw [sized]; omega)
  rw [sized] at slot
  refine ⟨a', address, call, ⟨?_, ?_, ?_, ?_⟩⟩
  · exact (slot.away 2 (by decide)) ▸ stocked.mm
  · exact (slot.away 7 (by decide)) ▸ stocked.table
  · have here := slot.here
    omega
  · exact slot.g ▸ stocked.pages

theorem link_table_some {tmp : Nat} (sound : Sound boot otherPages otherBlocks k.account)
    (stocked : Stocked k.account.heap mms (tables + 1) tasks pages) :
    ∃ k', linkTable k tmp = some k' ∧ Sound boot otherPages otherBlocks k'.account ∧
      Stocked k'.account.heap mms tables tasks pages := by
  obtain ⟨k₁, t, call, left⟩ := take_table_some sound stocked
  have kept := (take_table_spec sound call).1
  unfold linkTable
  rw [call]
  exact ⟨_, rfl, kept, left⟩

theorem link_page_some {tmp : Nat} (stocked : Stocked k.account.heap mms tables tasks (pages + 1)) :
    ∃ k' phy, linkPage k tmp = some (k', phy) ∧
      Stocked k'.account.heap mms tables tasks pages := by
  obtain ⟨found, rest⟩ := stocked.pages
  unfold linkPage allocPage
  generalize allocPages k.account.heap.g zoneNormal 1 = r at found rest ⊢
  obtain ⟨g, page⟩ := r
  cases page with
  | none => cases found
  | some page => exact ⟨_, _, rfl, ⟨stocked.mm, stocked.table, stocked.stack, rest⟩⟩

theorem ensure_table_some {tmp : Nat} (sound : Sound boot otherPages otherBlocks k.account)
    (stocked : Stocked k.account.heap mms (tables + 1) tasks pages) :
    ∃ k', ensureTable k tmp = some k' ∧ Sound boot otherPages otherBlocks k'.account ∧
      Stocked k'.account.heap mms tables tasks pages := by
  unfold ensureTable
  split
  · exact link_table_some sound stocked
  · exact ⟨k, rfl, sound, stocked.mm, Nat.le_of_succ_le stocked.table, stocked.stack, stocked.pages⟩

theorem pages_left_less {n : Nat} {g : Gmd} (left : PagesLeft g (n + 1)) : PagesLeft g n := by
  induction n generalizing g with
  | zero => trivial
  | succ n ih => exact ⟨left.1, ih left.2⟩

theorem map_page_some (sound : Sound boot otherPages otherBlocks k.account)
    (stocked : Stocked k.account.heap mms (tables + 2) tasks (pages + 1)) (pgd v : Nat) :
    ∃ k', mapPage k pgd v = some (k', true) ∧ Stocked k'.account.heap mms tables tasks pages := by
  obtain ⟨k₁, first, sound₁, stocked₁⟩ :=
    @ensure_table_some _ _ _ _ _ (tables + 1) _ _ (slotOf pgd (gdtIndex v)) sound stocked
  obtain ⟨k₂, second, sound₂, stocked₂⟩ := @ensure_table_some _ _ _ _ _ tables _ _
    (slotOf (k₁.memory (slotOf pgd (gdtIndex v))) (index1G v)) sound₁ stocked₁
  have less : Stocked k₂.account.heap mms tables tasks pages :=
    ⟨stocked₂.mm, stocked₂.table, stocked₂.stack, pages_left_less stocked₂.pages⟩
  obtain ⟨k₃, phy, linked, stocked₃⟩ := @link_page_some k₂ _ _ _ _ (slotOf (k₂.memory
    (slotOf (k₁.memory (slotOf pgd (gdtIndex v))) (index1G v))) (index2M v)) stocked₂
  unfold mapPage
  dsimp only
  rw [first]
  dsimp only [Option.bind_eq_bind, Option.bind_some]
  rw [second]
  dsimp only [Option.bind_some]
  split
  · rw [linked]
    exact ⟨k₃, rfl, stocked₃⟩
  · exact ⟨k₂, rfl, less⟩

/- What is mapped stays mapped. -/

section
variable {pgd : Nat} {level : Nat → List Nat} {path : List Nat} {u : Nat}

theorem ensure_table_keeps {tmp : Nat} (sound : Sound boot otherPages otherBlocks k.account)
    (space : Space k pgd level) (call : ensureTable k tmp = some k') (short : path.length ≤ 3)
    (within : Within format 0 path) (walked : walk k.memory path pgd = some u) :
    walk k'.memory path pgd = some u := by
  unfold ensureTable at call
  split at call
  · next empty =>
    obtain ⟨t, kept, aligned, _, blocks, memory⟩ := link_table_made sound call
    have differ : ∀ n < 3, t ∉ level n := fun n deep old =>
      fresh_table kept blocks (space.tables n deep t old) rfl
    have cleared : walk (clearWords k.memory t 512) path pgd = some u := by
      rw [@walk_frame _ _ _ _ format_ok space.tree (clear_same space aligned differ) path 0 _
        (by rw [Nat.zero_add]; exact short) within space.pgd_listed]
      exact walked
    rw [memory]
    refine walk_kept ?_ cleared
    unfold clearWords
    rw [empty, ite_self]
  · cases call
    exact walked

theorem ensure_table_entry {tmp : Nat} (sound : Sound boot otherPages otherBlocks k.account)
    (call : ensureTable k tmp = some k') : k'.memory tmp ≠ 0 := by
  unfold ensureTable at call
  split at call
  · obtain ⟨t, _, _, _, _, memory⟩ := link_table_made sound call
    rw [memory, Function.update_self]
    unfold pageUserDir
    omega
  · next full =>
    cases call
    exact full

theorem entry_walks (space : Space k pgd level) {n t i : Nat} (deep : n < 3) (listed : t ∈ level n)
    (within : i < format.fan n) (full : k.memory (slot t i) ≠ 0) :
    walk k.memory [i] t = some (base (k.memory (slot t i))) := by
  rcases space.tree.entries n deep t listed i within with zero | ⟨v, below, entry⟩
  · exact absurd zero full
  · have aligned := space.tree.aligned (n + 1) deep v below
    have tag := (format_ok.tag n deep).1
    have odd : k.memory (slot t i) % 2 ≠ 0 := by
      rw [entry]
      unfold Aligned tableBytes at aligned
      omega
    rw [walk, if_neg odd, walk]

theorem walk_snoc {memory : TableTree.Words} {t v i : Nat} (first : walk memory path t = some u)
    (last : walk memory [i] u = some v) : walk memory (path ++ [i]) t = some v := by
  rw [walk_append, first]
  exact last

/- Once both of its tables are there, an address leads through them. -/
theorem tables_walk {k₁ k₂ : Kernel} {level₁ level₂ : Nat → List Nat} {v : Nat}
    (sound : Sound boot otherPages otherBlocks k.account) (sound₁ : Sound boot otherPages otherBlocks k₁.account)
    (space₁ : Space k₁ pgd level₁) (space₂ : Space k₂ pgd level₂) (user : v < userEnd)
    (first : ensureTable k (slot pgd (gdtIndex v)) = some k₁)
    (second : ensureTable k₁ (slotOf (k₁.memory (slot pgd (gdtIndex v))) (index1G v)) = some k₂) :
    walk k₂.memory [gdtIndex v, index1G v] pgd =
      some (base (k₂.memory (slotOf (k₁.memory (slot pgd (gdtIndex v))) (index1G v)))) := by
  obtain ⟨small₁, small₂, -⟩ := index_within user
  have within₁ : Within format 0 [gdtIndex v] := And.intro small₁ trivial
  have short : [gdtIndex v].length ≤ 3 := Nat.le_add_left 1 2
  have step₁ := ensure_table_keeps sound₁ space₁ second short within₁
    (@entry_walks _ _ _ space₁ 0 _ _ (by omega) space₁.pgd_listed small₁
      (ensure_table_entry sound first))
  have listed₁ := @walk_listed _ _ _ format_ok space₂.tree [gdtIndex v] 0 _ _ short
    within₁ space₂.pgd_listed step₁
  exact walk_snoc step₁ (@entry_walks _ _ _ space₂ 1 _ _ (by omega) listed₁ small₂
    (ensure_table_entry sound₁ second))

/-- A page that do_brk or do_execve has asked for is mapped, and what was mapped still is. -/
theorem map_page_maps {v : Nat} (sound : Sound boot otherPages otherBlocks k.account)
    (space : Space k pgd level) (user : v < userEnd) (call : mapPage k pgd v = some (k', true)) :
    (∃ q, mapping k'.memory pgd v = some q) ∧
      ∀ w q, mapping k.memory pgd w = some q → mapping k'.memory pgd w = some q := by
  obtain ⟨small₁, small₂, small₃⟩ := index_within user
  unfold mapPage at call
  obtain ⟨k₁, first, call⟩ := Option.bind_eq_some_iff.mp call
  have root : slotOf pgd (gdtIndex v) = slot pgd (gdtIndex v) := by
    rw [slotOf, space.pgd_base]
  rw [root] at first call
  obtain ⟨level₁, sound₁, space₁, listed₁⟩ :=
    @ensure_table_spec _ _ _ _ _ _ _ sound space 0 pgd _ (by omega) space.pgd_listed small₁ first
  obtain ⟨k₂, second, call⟩ := Option.bind_eq_some_iff.mp call
  obtain ⟨level₂, sound₂, space₂, listed₂⟩ :=
    @ensure_table_spec _ _ _ _ _ _ _ sound₁ space₁ 1 _ _ (by omega) listed₁ small₂ second
  have kept₂ : ∀ {path u}, path.length ≤ 3 → Within format 0 path →
      walk k.memory path pgd = some u → walk k₂.memory path pgd = some u := by
    intro path u short within walked
    exact ensure_table_keeps sound₁ space₁ second short within
      (ensure_table_keeps sound space first short within walked)
  have step₂ := tables_walk sound sound₁ space₁ space₂ user first second
  have mapped : ∀ {memory : TableTree.Words} {w q : Nat}, w < userEnd →
      walk memory (pathOf w) pgd = some q → mapping memory pgd w = some q := by
    intro memory w q user walked
    unfold mapping
    rw [if_pos user, space.pgd_base]
    exact walked
  have unmapped : ∀ {w q : Nat}, mapping k.memory pgd w = some q →
      w < userEnd ∧ walk k₂.memory (pathOf w) pgd = some q := by
    intro w q there
    unfold mapping at there
    split at there
    · next user =>
      rw [space.pgd_base] at there
      exact ⟨user, kept₂ (Nat.le_refl 3) (path_within user) there⟩
    · cases there
  dsimp only at call
  split at call
  · next empty =>
    split at call
    · cases call
    · next k₃ phy linked =>
      cases call
      obtain ⟨p, rfl, _, _, _, memory⟩ := link_page_made sound₂ linked
      have kept₃ : ∀ {path u}, walk k₂.memory path pgd = some u →
          walk k'.memory path pgd = some u := by
        intro path u walked
        rw [memory]
        exact walk_kept empty walked
      have entry : k'.memory (slotOf (k₂.memory (slotOf (k₁.memory (slot pgd (gdtIndex v)))
          (index1G v))) (index2M v)) = pageEntry p := by
        rw [memory, Function.update_self]
      have last : walk k'.memory [index2M v] (base (k₂.memory (slot (base (k₁.memory
          (slot pgd (gdtIndex v)))) (index1G v)))) = some (base (pageEntry p)) := by
        rw [← entry, walk, walk]
        refine if_neg ?_
        change ¬ k'.memory (slotOf (k₂.memory (slotOf (k₁.memory (slot pgd (gdtIndex v)))
          (index1G v))) (index2M v)) % 2 = 0
        rw [entry]
        exact page_entry_odd p
      refine ⟨⟨_, mapped user (walk_snoc (kept₃ step₂) last)⟩, fun w q there => ?_⟩
      obtain ⟨user', walked⟩ := unmapped there
      exact mapped user' (kept₃ walked)
  · next full =>
    cases call
    have last := @entry_walks _ _ _ space₂ 2 _ _ (by omega) listed₂ small₃ full
    refine ⟨⟨_, mapped user (walk_snoc step₂ last)⟩, fun w q there => ?_⟩
    obtain ⟨user', walked⟩ := unmapped there
    exact mapped user' walked

theorem brk_pages_some {n i : Nat} (sound : Sound boot otherPages otherBlocks k.account)
    (space : Space k pgd level) (far : i + pageSize * n ≤ userEnd)
    (stocked : Stocked k.account.heap mms (tables + 2 * n) tasks (pages + n)) :
    ∃ k', brkPages k pgd n i = some (k', i + pageSize * n) ∧
      Stocked k'.account.heap mms tables tasks pages ∧
      (0 < n → ∃ q, mapping k'.memory pgd i = some q) ∧
      ∀ w q, mapping k.memory pgd w = some q → mapping k'.memory pgd w = some q := by
  induction n generalizing k i level with
  | zero => exact ⟨k, rfl, stocked, nofun, fun _ _ there => there⟩
  | succ n ih =>
    have next_page : i + pageSize + pageSize * n = i + pageSize * (n + 1) := by
      rw [Nat.mul_succ]
      omega
    have user : i < userEnd := by
      unfold pageSize at *
      omega
    obtain ⟨k₁, mapped, left⟩ := map_page_some sound stocked pgd i
    obtain ⟨sound₁, level₁, space₁⟩ := map_page_spec sound space user mapped
    obtain ⟨⟨q, here⟩, kept⟩ := map_page_maps sound space user mapped
    obtain ⟨k₂, rest, left₂, _, kept₂⟩ := ih sound₁ space₁ (next_page ▸ far) left
    refine ⟨k₂, ?_, left₂, fun _ => ⟨q, kept₂ _ _ here⟩, fun w q' there => kept₂ _ _ (kept _ _ there)⟩
    rw [brkPages, if_pos user, mapped]
    dsimp only [Option.bind_eq_bind, Option.bind_some]
    rw [rest, next_page]

theorem sys_brk_some {mm : Mm} {n : Nat} (sound : Sound boot otherPages otherBlocks k.account)
    (space : Space k mm.pgd level) (start : mm.endBrk = brkStart)
    (far : brkStart + pageSize * n ≤ userEnd)
    (stocked : Stocked k.account.heap mms (tables + 2 * n) tasks (pages + n)) :
    ∃ k' r, sysBrk k mm (brkStart + pageSize * n) =
        some (k', { mm with endBrk := brkStart + pageSize * n }, r) ∧
      Stocked k'.account.heap mms tables tasks pages ∧
      (0 < n → ∃ q, mapping k'.memory mm.pgd brkStart = some q) ∧
      ∀ w q, mapping k.memory mm.pgd w = some q → mapping k'.memory mm.pgd w = some q := by
  obtain ⟨k', grown, left, mapped, kept⟩ := brk_pages_some sound space far stocked
  have aligned : page2MAlign (brkStart + pageSize * n) = brkStart + pageSize * n := by
    unfold page2MAlign
    unfold userEnd brkStart pageSize at *
    omega
  have pages_asked : (brkStart + pageSize * n - brkStart + pageSize - 1) / pageSize = n := by
    unfold pageSize
    omega
  refine ⟨k', brkStart + pageSize * n, ?_, left, mapped, kept⟩
  unfold sysBrk
  dsimp only
  rw [aligned, if_neg (by unfold brkStart; omega), start, if_neg (by omega), doBrk, pages_asked, grown]
  rfl

end

theorem do_execve_some {t : Task} {image : TableTree.Words}
    (sound : Sound boot otherPages otherBlocks k.account) (vfork : t.flags &&& pfVfork ≠ 0)
    (stocked : Stocked k.account.heap (mms + 1) (tables + 3) tasks (pages + 1)) :
    ∃ k' t', doExecve k t image = some (k', t') ∧ t'.flags = t.flags &&& ~~~pfVfork ∧
      Stocked k'.account.heap mms tables tasks pages ∧
      ∃ q, mapping k'.memory t'.mm.pgd codeStart = some q := by
  obtain ⟨k₁, address, first, stocked₁⟩ := take_mm_some sound stocked
  obtain ⟨sound₁, _⟩ := take_mm_spec sound first
  obtain ⟨k₂, pgd, second, stocked₂⟩ := @take_table_some _ _ _ _ _ (tables + 2) _ _ sound₁ stocked₁
  have space_call : execSpace k t =
      some (copyKernelSpace (clearUserSpace k₂ pgd) pgd, ⟨address, pgd, 0, 0⟩) := by
    unfold execSpace
    rw [if_pos vfork, first]
    dsimp only [Option.bind_eq_bind, Option.bind_some]
    rw [second]
    rfl
  obtain ⟨sound₂, level, space⟩ := exec_space_spec sound (fun plain => absurd plain vfork) space_call
  obtain ⟨k₃, mapped, stocked₃⟩ := map_page_some sound₂ stocked₂ pgd codeStart
  obtain ⟨sound₃, level₃, space₃⟩ := map_page_spec sound₂ space (by decide) mapped
  obtain ⟨⟨q, here⟩, _⟩ := map_page_maps sound₂ space (by decide) mapped
  obtain ⟨user, p, held, rfl⟩ := mapping_page space₃ here
  let memory : TableTree.Words := fun x =>
    if pageSize * p ≤ x ∧ x < pageSize * p + pageSize then image (x - pageSize * p)
    else k₃.memory x
  refine ⟨{ k₃ with memory := memory },
    ⟨t.address, t.flags &&& ~~~pfVfork, ⟨address, pgd, brkStart, brkStart⟩⟩, ?_, rfl, stocked₃,
    pageSize * p, ?_⟩
  · unfold doExecve
    rw [space_call]
    dsimp only [Option.bind_eq_bind, Option.bind_some]
    rw [mapped]
    dsimp only [Option.bind_some]
    rw [here]
    rfl
  · rw [← here]
    apply mapping_same space₃
    apply page_same sound₃ space₃ (List.mem_append_left _ held)
    intro a outside
    refine if_neg ?_
    omega

theorem linked_empty {t i j : Nat} (sound : Sound boot otherPages otherBlocks k.account)
    (held : (physToVirt t, tableBytes) ∈ k.account.blocks) (within : i < 512) (small : j < 512)
    (call : linkTable k (slot t i) = some k') : k'.memory (slotOf (k'.memory (slot t i)) j) = 0 := by
  obtain ⟨u, kept, aligned, _, blocks, memory⟩ := link_table_made sound call
  have place := (table_place sound.toInv (List.mem_append_left _ held)).1
  have fresh : u ≠ t := fresh_table kept blocks held
  rw [memory, Function.update_self, slotOf_table aligned (by decide),
    Function.update_of_ne (slot_ne aligned place fresh small within)]
  exact clear_own _ small

theorem link_page_g {tmp phy : Nat} (call : linkPage k tmp = some (k', phy)) :
    k'.account.heap.g = (allocPages k.account.heap.g zoneNormal 1).1 := by
  obtain ⟨⟨a, p⟩, taken, made⟩ := Option.map_eq_some_iff.mp call
  cases made
  unfold allocPage at taken
  generalize allocPages k.account.heap.g zoneNormal 1 = r at taken ⊢
  obtain ⟨g, found⟩ := r
  cases found with
  | none => cases taken
  | some page =>
    cases taken
    rfl

theorem exec_root (k : Kernel) (pgd : Nat) :
    NewRoot k (copyKernelSpace (clearUserSpace k pgd) pgd) pgd := by
  unfold copyKernelSpace clearUserSpace copyWords clearWords
  refine ⟨rfl, fun i small => ?_, fun a outside => ?_⟩
  · unfold slot
    dsimp only
    rw [if_neg (by omega), if_pos (by omega)]
  · unfold tableBytes at outside
    dsimp only
    rw [if_neg (by omega), if_neg (by omega)]

/-- A do_execve after CLONE_VM that finds its objects in the caches takes one page, and leaves
the page of the code alone in the tables. -/
theorem exec_built {t t' : Task} {image : TableTree.Words}
    (sound : Sound boot otherPages otherBlocks k.account) (vfork : t.flags &&& pfVfork ≠ 0)
    (stocked : Stocked k.account.heap (mms + 1) (tables + 3) tasks pages)
    (call : doExecve k t image = some (k', t')) :
    ∃ address pdpt pdt p, Sound boot otherPages otherBlocks k'.account ∧
      Built k k' address t'.mm.pgd pdpt pdt [p] (codeEntry p) ∧
      k'.account.heap.g = (allocPages k.account.heap.g zoneNormal 1).1 := by
  obtain ⟨⟨root, mm⟩, space_call, call⟩ := Option.bind_eq_some_iff.mp call
  unfold execSpace at space_call
  rw [if_pos vfork] at space_call
  obtain ⟨⟨k₁, address⟩, step₁, space_call⟩ := Option.bind_eq_some_iff.mp space_call
  obtain ⟨⟨k₂, pgd⟩, step₂, space_call⟩ := Option.bind_eq_some_iff.mp space_call
  cases space_call
  obtain ⟨sound₁, _⟩ := take_mm_spec sound step₁
  have slot₁ := take_mm_slot sound stocked step₁
  have stocked₁ := stocked.take_mm slot₁
  obtain ⟨sound₂, _, blocks₂, _⟩ := take_table_spec sound₁ step₂
  have slot₂ := take_table_slot sound₁ stocked₁ step₂
  have stocked₂ := stocked₁.take_table slot₂
  have new := exec_root k₂ pgd
  have held : (physToVirt pgd, tableBytes) ∈ k₂.account.blocks := by
    rw [blocks₂]
    exact List.mem_cons_self
  have place := (table_place sound₂.toInv (List.mem_append_left _ held)).1
  have tmp₁ : slotOf pgd (gdtIndex codeStart) = slot pgd 0 := by
    rw [slotOf, base_aligned place]
    rfl
  obtain ⟨⟨k₅, ok⟩, mapped, call⟩ := Option.bind_eq_some_iff.mp call
  unfold mapPage at mapped
  generalize root_eq : copyKernelSpace (clearUserSpace k₂ pgd) pgd = root at *
  have sound_root : Sound boot otherPages otherBlocks root.account := new.account ▸ sound₂
  have stocked_root : Stocked root.account.heap mms (tables + 2) tasks pages := new.account ▸ stocked₂
  have held_root : (physToVirt pgd, tableBytes) ∈ root.account.blocks := new.account ▸ held
  obtain ⟨k₃, step₃, mapped⟩ := Option.bind_eq_some_iff.mp mapped
  have empty₁ := new.clear 0 (by omega)
  unfold ensureTable at step₃
  rw [tmp₁, if_pos empty₁] at step₃
  have empty₂ := @linked_empty _ _ _ _ _ _ 0 (index1G codeStart) sound_root held_root (by omega)
    (by decide) step₃
  have slot₃ := link_table_slot sound_root stocked_root step₃
  have stocked₃ := stocked_root.take_table slot₃
  obtain ⟨_, sound₃, _⟩ := link_table_made sound_root step₃
  obtain ⟨k₄, step₄, mapped⟩ := Option.bind_eq_some_iff.mp mapped
  unfold ensureTable at step₄
  rw [tmp₁, if_pos empty₂] at step₄
  have slot₄ := link_table_slot sound₃ stocked₃ step₄
  rw [← tmp₁] at step₃ step₄
  obtain ⟨pdpt, pdt, sound₄, built₄, tmp⟩ := tables_built sound step₁ step₂ new step₃ step₄
  have empty₃ := built₄.third 4 (by omega)
  dsimp only at mapped
  rw [tmp, if_pos empty₃] at mapped
  cases linked : linkPage k₄ (slot pdt 4) with
  | none =>
    rw [linked] at mapped
    cases mapped
    cases call
  | some r =>
    obtain ⟨k₆, phy⟩ := r
    rw [linked] at mapped
    cases mapped
    obtain ⟨p, rfl, sound₅, pages₅, blocks₅, memory₅⟩ := link_page_made sound₄ linked
    obtain ⟨page, found, call⟩ := Option.bind_eq_some_iff.mp call
    have plain := page_linked sound₄ sound₅ built₄ (by omega) pages₅ blocks₅ memory₅ rfl
      (fun _ _ => rfl)
    have code : index2M codeStart = 4 := by decide
    rw [plain.mapping_first (plain.placed sound₅) (by decide), code, Function.update_self,
      if_neg (page_entry_odd p), page_entry_base] at found
    cases found
    have taken := link_page_g linked
    cases call
    refine ⟨address, pdpt, pdt, p, sound₅, page_linked sound₄ sound₅ built₄ (by omega) pages₅ blocks₅
      memory₅ rfl (fun a outside => if_neg (by omega)), ?_⟩
    have heap : k₄.account.heap.g = k.account.heap.g := by
      rw [slot₄.g, slot₃.g, new.account, slot₂.g, slot₁.g]
    rw [← heap]
    exact taken

theorem linked_beyond {k₁ : Kernel} {address pgd pdpt pdt i phy : Nat} {fresh : List Nat}
    {last : Nat → Nat} {k₀ : Kernel} (sound : Sound boot otherPages otherBlocks k.account)
    (built : Built k₀ k address pgd pdpt pdt fresh last) (small : i < 512)
    (linked : linkPage k (slot pdt i) = some (k₁, phy)) :
    ∀ a, Beyond [pgd, pdpt, pdt] fresh a → k₁.memory a = k₀.memory a := by
  obtain ⟨p, _, _, _, _, memory⟩ := link_page_made sound linked
  intro a beyond
  rw [memory, Function.update_of_ne (slot_outside (beyond.1 pdt (by simp)) small)]
  exact built.frame a beyond

theorem copy_page_some {k₁ : Kernel} {address pgd pdpt pdt i phy parent v q : Nat}
    {fresh : List Nat} {last : Nat → Nat} {k₀ : Kernel} {level : Nat → List Nat}
    (sound : Sound boot otherPages otherBlocks k.account)
    (built : Built k₀ k address pgd pdpt pdt fresh last) (space : Space k₀ parent level)
    (small : i < 512) (linked : linkPage k (slot pdt i) = some (k₁, phy))
    (mapped : mapping k₀.memory parent v = some q) :
    ∃ k₂, copyPage k₁ parent v phy = some k₂ ∧ k₂.account = k₁.account := by
  have still := mapping_same space
    (built.same_tables sound space (linked_beyond sound built small linked)) v
  unfold copyPage
  rw [still, mapped]
  exact ⟨_, rfl, rfl⟩

theorem copy_mm_some {mm : Mm} {level : Nat → List Nat} {q : Nat}
    (sound : Sound boot otherPages otherBlocks k.account) (space : Space k mm.pgd level)
    (stocked : Stocked k.account.heap (mms + 1) (tables + 3) tasks (pages + 2))
    (code : mapping k.memory mm.pgd codeStart = some q)
    (heap : mm.endBrk ≠ mm.startBrk → ∃ r, mapping k.memory mm.pgd brkStart = some r) :
    ∃ k' mm', copyMm k mm = some (k', mm') := by
  obtain ⟨k₁, address, step₁, stocked₁⟩ := take_mm_some sound stocked
  obtain ⟨sound₁, _⟩ := take_mm_spec sound step₁
  obtain ⟨k₂, pgd, step₂, stocked₂⟩ := @take_table_some _ _ _ _ _ (tables + 2) _ _ sound₁ stocked₁
  obtain ⟨sound₂, _⟩ := take_table_spec sound₁ step₂
  obtain ⟨k₃, step₃, sound₃, stocked₃⟩ := @link_table_some _ _ _
    (clearUserSpace (copyKernelSpace k₂ pgd) pgd) _ (tables + 1) _ _
    (slotOf pgd (gdtIndex codeStart)) sound₂ stocked₂
  obtain ⟨k₄, step₄, sound₄, stocked₄⟩ := @link_table_some _ _ _ _ _ tables _ _
    (slotOf (k₃.memory (slotOf pgd (gdtIndex codeStart))) (index1G codeStart)) sound₃ stocked₃
  obtain ⟨pdpt, pdt, _, built₄, tmp⟩ := tables_built sound step₁ step₂ (copied_root k₂ pgd) step₃ step₄
  obtain ⟨k₅, phy, step₅, stocked₅⟩ := @link_page_some k₄ _ _ _ (pages + 1) (slot pdt 4) stocked₄
  obtain ⟨k₆, step₆, same₆⟩ := copy_page_some sound₄ built₄ space (by omega) step₅ code
  obtain ⟨p, _, _, sound₆, built₆, _⟩ := page_built sound₄ built₄ (by omega) step₅ step₆
  obtain ⟨k₇, phy', step₇, _⟩ := @link_page_some k₆ _ _ _ pages (slot pdt 6) (same₆ ▸ stocked₅)
  unfold copyMm
  rw [step₁]
  dsimp only [Option.bind_eq_bind, Option.bind_some]
  rw [step₂]
  dsimp only [Option.bind_some]
  rw [step₃]
  dsimp only [Option.bind_some]
  rw [step₄]
  dsimp only [Option.bind_some]
  rw [tmp, step₅]
  dsimp only [Option.bind_some]
  rw [step₆]
  dsimp only [Option.bind_some]
  split
  · next some_heap =>
    obtain ⟨r, mapped⟩ := heap some_heap
    obtain ⟨k₈, step₈, _⟩ := copy_page_some sound₆ built₆ space (by omega) step₇ mapped
    rw [slotAt_built built₆ (built₆.placed sound₆), step₇]
    dsimp only [Option.bind_some]
    rw [step₈]
    exact ⟨_, _, rfl⟩
  · exact ⟨_, _, rfl⟩

theorem do_fork_some {t : Task} {level : Nat → List Nat} {q : Nat}
    (sound : Sound boot otherPages otherBlocks k.account) (space : Space k t.mm.pgd level)
    (stocked : Stocked k.account.heap (mms + 1) (tables + 3) (tasks + 1) (pages + 2))
    (code : mapping k.memory t.mm.pgd codeStart = some q)
    (heap : t.mm.endBrk ≠ t.mm.startBrk → ∃ r, mapping k.memory t.mm.pgd brkStart = some r) :
    ∃ k' child, doFork k t false = some (k', some child) := by
  obtain ⟨a, address, taken, stocked₁⟩ := take_stack_some sound stocked
  obtain ⟨sound₁, pages₁, blocks₁⟩ := take_block_spec (no_rule _ _) sound taken
  have space₁ : Space { k with account := a } t.mm.pgd level := by
    refine space.frame (fun _ _ _ _ _ _ => rfl) (fun e member => ?_) (fun p member => ?_)
    · dsimp only
      rw [blocks₁]
      exact List.mem_cons_of_mem _ member
    · dsimp only
      rw [pages₁]
      exact member
  obtain ⟨k', mm, copied⟩ := @copy_mm_some _ _ _ { k with account := a } _ _ _ _ _ _ _ sound₁
    space₁ stocked₁ code heap
  unfold doFork
  rw [taken]
  dsimp only [Option.bind_eq_bind, Option.bind_some]
  rw [if_neg (by decide), copied]
  exact ⟨_, _, rfl⟩

end AddressSpace

import Q2os.AddressSpace
import Q2os.SlabAccount

/- The tables of a process are blocks of its own and map pages of its own; do_execve, do_brk and
   sys_brk keep that. -/
namespace AddressSpace
open PageAllocator PageRuns Kmalloc KmallocPages HeapInvariant KmallocSlabs KmallocSafety
  PageRules SlabCache TableTree

def format : Format where
  depth := 3
  fan n := if n = 0 then 256 else 512
  tag n := if n = 2 then pageUserPage else pageUserDir

theorem inner_level {n : Nat} (deep : n < 2) : n + 1 < format.depth := by
  have depth : format.depth = 3 := rfl
  omega

theorem format_ok : format.Ok := by
  constructor
  · intro n _
    unfold format
    dsimp only
    split
    · decide
    · decide
  · intro n _
    unfold format
    dsimp only
    split
    · decide
    · decide

variable {boot : Nat → Prop} {otherPages : List Nat} {otherBlocks : List (Nat × Nat)}

/-- The heap keeps its invariant with what the process holds beside what others do. -/
abbrev Sound (boot : Nat → Prop) (otherPages : List Nat) (otherBlocks : List (Nat × Nat))
    (a : Account) : Prop :=
  Balanced boot (fun _ => True) otherPages otherBlocks a

/-- The tables below a pgd are blocks that are held, and what they map are pages that are held. -/
structure Space (k : Kernel) (pgd : Nat) (level : Nat → List Nat) : Prop where
  tree : Tree format k.memory level
  root : level 0 = [pgd]
  tables : ∀ n < 3, ∀ t ∈ level n, (physToVirt t, tableBytes) ∈ k.account.blocks
  pages : ∀ q ∈ level 3, ∃ p ∈ k.account.pages, q = pageSize * p

theorem block_place {pending : List Nat} {extra : List (Nat × Nat)} {h : Heap} {e : Nat × Nat}
    (inv : Inv boot pending extra h) (member : e ∈ extra) : ∃ page j,
      e.1 = physToVirt (pageSize * page + cacheSize (sizeClass e.2) * j) ∧
      cacheSize (sizeClass e.2) * j + cacheSize (sizeClass e.2) ≤ pageSize ∧ page ∉ pending := by
  obtain ⟨i, s, j, block⟩ := inv.occupied e (List.mem_append_left _ member)
  have ok := inv.slab_ok i block.cache s block.listed
  have last := slot_end (i := i) block.slot
  have slots := ok.slots
  refine ⟨(h.slab s).page, j, ?_, ?_, fun held => ?_⟩
  · rw [block.sized, block.address, ok.mapped]
    unfold physToVirt
    omega
  · rw [block.sized]
    omega
  · exact (inv.reserved _ (Or.inr held)).2 i block.cache s block.listed rfl

theorem table_class : cacheSize (sizeClass tableBytes) = tableBytes := by decide

theorem phys_virt {t u : Nat} (same : physToVirt t = physToVirt u) : t = u := by
  unfold physToVirt at same
  omega

/-- A table is aligned and outside every page that is held as such. -/
theorem table_place {pending : List Nat} {extra : List (Nat × Nat)} {h : Heap} {t : Nat}
    (inv : Inv boot pending extra h) (member : (physToVirt t, tableBytes) ∈ extra) :
    Aligned t ∧ ∀ p ∈ pending, t + tableBytes ≤ pageSize * p ∨ pageSize * p + pageSize ≤ t := by
  obtain ⟨page, j, address, fits, absent⟩ := block_place inv member
  rw [table_class] at address fits
  have place := phys_virt address
  rw [place]
  unfold Aligned
  unfold tableBytes pageSize at *
  refine ⟨by omega, fun p held => ?_⟩
  have differ : page ≠ p := fun same => absent (same ▸ held)
  omega

theorem or_tag {u tag : Nat} (aligned : Aligned u) (small : tag < tableBytes) :
    u ||| tag = u + tag := by
  have whole : u = 2 ^ 12 * (u / 4096) := by
    unfold Aligned tableBytes at aligned
    omega
  rw [whole]
  exact (Nat.two_pow_add_eq_or_of_lt small _).symm

theorem take_table_spec {k k' : Kernel} {t : Nat} (sound : Sound boot otherPages otherBlocks k.account)
    (call : takeTable k = some (k', t)) :
    Sound boot otherPages otherBlocks k'.account ∧ k'.account.pages = k.account.pages ∧
      k'.account.blocks = (physToVirt t, tableBytes) :: k.account.blocks ∧
      k'.memory = k.memory ∧ k'.initPgd = k.initPgd := by
  unfold takeTable at call
  split at call
  · next a virtual taken =>
    cases call
    obtain ⟨kept, pages, blocks⟩ := take_block_spec (no_rule _ _) sound taken
    have member : (virtual, tableBytes) ∈ a.blocks ++ otherBlocks := by
      rw [blocks]
      exact List.mem_append_left _ List.mem_cons_self
    obtain ⟨page, j, address, _⟩ := block_place kept.toInv member
    have same : physToVirt (virtual - pageOffset) = virtual := by
      dsimp only at address
      unfold physToVirt at address ⊢
      omega
    refine ⟨kept, pages, ?_, rfl, rfl⟩
    rw [same]
    exact blocks
  · cases call

theorem fresh_table {a : Account} {rest : List (Nat × Nat)} {t u : Nat}
    (sound : Sound boot otherPages otherBlocks a)
    (blocks : a.blocks = (physToVirt t, tableBytes) :: rest)
    (held : (physToVirt u, tableBytes) ∈ rest) : t ≠ u := by
  intro same
  have nodup := sound.starts_nodup
  rw [blocks, List.map_cons, List.nodup_cons] at nodup
  exact nodup.1 (same ▸ List.mem_map_of_mem held)

theorem alloc_page_spec {a a' : Account} {p : Nat} (sound : Sound boot otherPages otherBlocks a)
    (call : allocPage a = some (a', p)) :
    Sound boot otherPages otherBlocks a' ∧ a'.pages = p :: a.pages ∧ a'.blocks = a.blocks ∧
      (a'.heap.g.pages p).phyAddress = pageSize * p := by
  unfold allocPage at call
  generalize requested : allocPages a.heap.g zoneNormal 1 = r at call
  obtain ⟨g, found⟩ := r
  cases found with
  | none => cases call
  | some page =>
    cases call
    have inv := taken_page_inv sound.toInv (alloc_one sound.pages requested)
    exact ⟨⟨inv, trivial⟩, rfl, rfl, inv.pending_mapped p List.mem_cons_self⟩

section
variable {k k' : Kernel} {pgd : Nat} {level : Nat → List Nat}

theorem clear_same {u : Nat} (space : Space k pgd level) (aligned : Aligned u)
    (differ : ∀ n < 3, u ∉ level n) :
    SameTables format level k.memory (clearWords k.memory u 512) := by
  apply same_of_outside
  intro a inside
  refine if_neg fun cleared => inside fun n deep t listed => ?_
  have deep' : n < 3 := deep
  have other : t ≠ u := fun same => differ n deep (same ▸ listed)
  have apart := aligned_apart (space.tree.aligned n (Nat.le_of_lt deep) t listed) aligned other
  unfold tableBytes at *
  omega

theorem link_table_made {tmp : Nat} (sound : Sound boot otherPages otherBlocks k.account)
    (call : linkTable k tmp = some k') :
    ∃ u, Sound boot otherPages otherBlocks k'.account ∧ Aligned u ∧
      k'.account.pages = k.account.pages ∧
      k'.account.blocks = (physToVirt u, tableBytes) :: k.account.blocks ∧
      k'.memory = Function.update (clearWords k.memory u 512) tmp (u + pageUserDir) := by
  obtain ⟨⟨k₁, u⟩, taken, made⟩ := Option.map_eq_some_iff.mp call
  obtain ⟨kept, pages, blocks, memory, _⟩ := take_table_spec sound taken
  have member : (physToVirt u, tableBytes) ∈ k₁.account.blocks ++ otherBlocks := by
    rw [blocks]
    exact List.mem_append_left _ List.mem_cons_self
  have aligned := (table_place kept.toInv member).1
  have entry : u ||| pageUserDir = u + pageUserDir := or_tag aligned (by decide)
  rw [← made]
  refine ⟨u, kept, aligned, pages, blocks, ?_⟩
  dsimp only
  rw [memory, entry]

theorem clear_own (memory : TableTree.Words) {t i : Nat} (small : i < 512) :
    clearWords memory t 512 (slot t i) = 0 := by
  refine if_pos ⟨?_, ?_⟩
  · unfold slot
    omega
  · unfold slot
    omega

theorem link_table_spec (sound : Sound boot otherPages otherBlocks k.account)
    (space : Space k pgd level) {n t i : Nat} (deep : n < 2) (listed : t ∈ level n)
    (within : i < format.fan n) (call : linkTable k (slot t i) = some k') :
    ∃ u, Sound boot otherPages otherBlocks k'.account ∧ Space k' pgd (grow level (n + 1) u) ∧
      k'.memory (slot t i) = u + pageUserDir := by
  obtain ⟨u, kept, aligned, pages, blocks, memory⟩ := link_table_made sound call
  have differ : ∀ m < 3, u ∉ level m := fun m low old =>
    fresh_table kept blocks (space.tables m low u old) rfl
  have tag : format.tag n = pageUserDir := if_neg (by omega)
  have wide := format_ok.fan (n + 1) (inner_level deep)
  have cleared := space.tree.frame format_ok (clear_same space aligned differ)
  have linked := cleared.link format_ok (Nat.lt_of_succ_lt (inner_level deep)) listed
    within aligned (fun _ m low => differ m low) (fun _ j small => clear_own _ (by omega))
  rw [tag, ← memory] at linked
  refine ⟨u, kept, ⟨linked, ?_, ?_, ?_⟩, ?_⟩
  · rw [grow, Function.update_of_ne (by omega)]
    exact space.root
  · intro m low v member
    rw [blocks]
    rcases mem_grow.mp member with ⟨_, rfl⟩ | old
    · exact List.mem_cons_self
    · exact List.mem_cons_of_mem _ (space.tables m low v old)
  · intro q member
    rw [pages]
    rcases mem_grow.mp member with ⟨three, _⟩ | old
    · omega
    · exact space.pages q old
  · rw [memory, Function.update_self]

theorem ensure_table_spec (sound : Sound boot otherPages otherBlocks k.account)
    (space : Space k pgd level) {n t i : Nat} (deep : n < 2) (listed : t ∈ level n)
    (within : i < format.fan n) (call : ensureTable k (slot t i) = some k') :
    ∃ level', Sound boot otherPages otherBlocks k'.account ∧ Space k' pgd level' ∧
      base (k'.memory (slot t i)) ∈ level' (n + 1) := by
  have tag := format_ok.tag n (Nat.lt_of_succ_lt (inner_level deep))
  have tag_eq : format.tag n = pageUserDir := if_neg (by omega)
  unfold ensureTable at call
  by_cases empty : k.memory (slot t i) = 0
  · rw [if_pos empty] at call
    obtain ⟨u, kept, grown, entry⟩ := link_table_spec sound space deep listed within call
    have below : u ∈ grow level (n + 1) u (n + 1) := mem_grow.mpr (Or.inl ⟨rfl, rfl⟩)
    have aligned := grown.tree.aligned (n + 1) (Nat.le_of_lt (inner_level deep)) u below
    refine ⟨_, kept, grown, ?_⟩
    rw [entry, base_entry aligned (by decide)]
    exact below
  · rw [if_neg empty] at call
    cases call
    rcases space.tree.entries n (Nat.lt_of_succ_lt (inner_level deep)) t listed i within with
      zero | ⟨u, below, entry⟩
    · exact absurd zero empty
    · have aligned := space.tree.aligned (n + 1) (Nat.le_of_lt (inner_level deep)) u below
      refine ⟨level, sound, space, ?_⟩
      rw [entry, base_entry aligned tag.2]
      exact below

theorem page_aligned (p : Nat) : Aligned (pageSize * p) := by
  unfold Aligned tableBytes pageSize
  omega

def pageEntry (p : Nat) : Nat := pageSize * p + pageUserPage

theorem link_page_made {tmp phy : Nat} (sound : Sound boot otherPages otherBlocks k.account)
    (call : linkPage k tmp = some (k', phy)) :
    ∃ p, phy = pageSize * p ∧ Sound boot otherPages otherBlocks k'.account ∧
      k'.account.pages = p :: k.account.pages ∧ k'.account.blocks = k.account.blocks ∧
      k'.memory = Function.update k.memory tmp (pageEntry p) := by
  obtain ⟨⟨a, p⟩, taken, made⟩ := Option.map_eq_some_iff.mp call
  obtain ⟨kept, pages, blocks, address⟩ := alloc_page_spec sound taken
  simp only [address, Prod.mk.injEq] at made
  obtain ⟨rfl, rfl⟩ := made
  have entry : pageSize * p ||| pageUserPage = pageEntry p := or_tag (page_aligned p) (by decide)
  refine ⟨p, rfl, kept, pages, blocks, ?_⟩
  rw [entry]

theorem link_page_spec (sound : Sound boot otherPages otherBlocks k.account)
    (space : Space k pgd level) {t i phy : Nat} (listed : t ∈ level 2) (within : i < 512)
    (call : linkPage k (slot t i) = some (k', phy)) :
    Sound boot otherPages otherBlocks k'.account ∧ Space k' pgd (grow level 3 phy) := by
  obtain ⟨p, rfl, kept, pages, blocks, memory⟩ := link_page_made sound call
  have linked := space.tree.link format_ok (show 2 < format.depth by decide) listed
    (show i < format.fan 2 by exact within) (page_aligned p)
    (fun more => absurd more (by decide)) (fun more => absurd more (by decide))
  have same : k'.memory = Function.update k.memory (slot t i) (pageSize * p + format.tag 2) := memory
  rw [← same] at linked
  refine ⟨kept, ⟨linked, ?_, ?_, ?_⟩⟩
  · rw [grow, Function.update_of_ne (by omega)]
    exact space.root
  · intro m low v member
    rw [blocks]
    rcases mem_grow.mp member with ⟨three, _⟩ | old
    · omega
    · exact space.tables m low v old
  · intro q member
    rw [pages]
    rcases mem_grow.mp member with ⟨_, rfl⟩ | old
    · exact ⟨p, List.mem_cons_self, rfl⟩
    · obtain ⟨p', held, same⟩ := space.pages q old
      exact ⟨p', List.mem_cons_of_mem _ held, same⟩

theorem index_within {v : Nat} (user : v < userEnd) :
    gdtIndex v < 256 ∧ index1G v < 512 ∧ index2M v < 512 := by
  unfold userEnd at user
  unfold gdtIndex index1G index2M
  omega

theorem path_within {v : Nat} (user : v < userEnd) : Within format 0 (pathOf v) :=
  ⟨(index_within user).1, (index_within user).2.1, (index_within user).2.2, trivial⟩

theorem base_aligned {a : Nat} (aligned : Aligned a) : base a = a := by
  unfold Aligned at aligned
  unfold base
  unfold tableBytes at *
  omega

theorem Space.pgd_listed (space : Space k pgd level) : pgd ∈ level 0 := by
  rw [space.root]
  exact List.mem_cons_self

theorem Space.pgd_base (space : Space k pgd level) : base pgd = pgd :=
  base_aligned (space.tree.aligned 0 (Nat.zero_le _) pgd space.pgd_listed)

/-- One page more. -/
theorem map_page_spec (sound : Sound boot otherPages otherBlocks k.account)
    (space : Space k pgd level) {v : Nat} (user : v < userEnd) {ok : Bool}
    (call : mapPage k pgd v = some (k', ok)) :
    Sound boot otherPages otherBlocks k'.account ∧ ∃ level', Space k' pgd level' := by
  obtain ⟨small₁, small₂, small₃⟩ := index_within user
  unfold mapPage at call
  obtain ⟨k₁, first, call⟩ := Option.bind_eq_some_iff.mp call
  have root : slotOf pgd (gdtIndex v) = slot pgd (gdtIndex v) := by
    rw [slotOf, space.pgd_base]
  rw [root] at first call
  obtain ⟨level₁, sound₁, space₁, listed₁⟩ :=
    @ensure_table_spec _ _ _ _ _ _ _ sound space 0 pgd _ (by omega) space.pgd_listed small₁ first
  obtain ⟨k₂, second, call⟩ := Option.bind_eq_some_iff.mp call
  obtain ⟨level₂, sound₂, space₂, listed₂⟩ :=
    @ensure_table_spec _ _ _ _ _ _ _ sound₁ space₁ 1 _ _ (by omega) listed₁ small₂ second
  dsimp only at call
  split at call
  · split at call
    · cases call
      exact ⟨sound₂, level₂, space₂⟩
    · next k₃ phy linked =>
      cases call
      obtain ⟨sound₃, space₃⟩ := link_page_spec sound₂ space₂ listed₂ small₃ linked
      exact ⟨sound₃, _, space₃⟩
  · cases call
    exact ⟨sound₂, level₂, space₂⟩

/-- The loop of do_brk. -/
theorem brk_pages_spec {n i r : Nat} (sound : Sound boot otherPages otherBlocks k.account)
    (space : Space k pgd level) (call : brkPages k pgd n i = some (k', r)) :
    Sound boot otherPages otherBlocks k'.account ∧ (∃ level', Space k' pgd level') ∧
      (r = minusENOMEM ∨ r = i + pageSize * n) := by
  induction n generalizing k i level with
  | zero =>
    cases call
    exact ⟨sound, ⟨level, space⟩, Or.inr rfl⟩
  | succ n ih =>
    rw [brkPages] at call
    split at call
    · next user =>
      obtain ⟨⟨k₁, ok⟩, mapped, call⟩ := Option.bind_eq_some_iff.mp call
      obtain ⟨sound₁, level₁, space₁⟩ := map_page_spec sound space user mapped
      cases ok with
      | false =>
        cases call
        exact ⟨sound₁, ⟨level₁, space₁⟩, Or.inl rfl⟩
      | true =>
        obtain ⟨kept, below, last⟩ := ih sound₁ space₁ call
        have far : i + pageSize + pageSize * n = i + pageSize * (n + 1) := by
          rw [Nat.mul_succ]
          omega
        rw [far] at last
        exact ⟨kept, below, last⟩
    · cases call

theorem sys_brk_spec {mm mm' : Mm} {brk r : Nat}
    (sound : Sound boot otherPages otherBlocks k.account) (space : Space k mm.pgd level)
    (call : sysBrk k mm brk = some (k', mm', r)) :
    Sound boot otherPages otherBlocks k'.account ∧ (∃ level', Space k' mm'.pgd level') ∧
      mm'.startBrk = mm.startBrk ∧ (mm'.endBrk = minusENOMEM ∨ mm.endBrk ≤ mm'.endBrk) := by
  unfold sysBrk at call
  dsimp only at call
  split at call
  · cases call
    exact ⟨sound, ⟨level, space⟩, rfl, Or.inr (Nat.le_refl _)⟩
  · split at call
    · cases call
      exact ⟨sound, ⟨level, space⟩, rfl, Or.inr (Nat.le_refl _)⟩
    · obtain ⟨⟨k₁, e⟩, grown, made⟩ := Option.map_eq_some_iff.mp call
      cases made
      obtain ⟨kept, below, last⟩ := brk_pages_spec sound space grown
      refine ⟨kept, below, rfl, last.imp_right fun last => ?_⟩
      dsimp only
      omega

theorem Space.frame (space : Space k pgd level)
    (same : SameTables format level k.memory k'.memory)
    (blocks : ∀ e ∈ k.account.blocks, e ∈ k'.account.blocks)
    (pages : ∀ p ∈ k.account.pages, p ∈ k'.account.pages) : Space k' pgd level where
  tree := space.tree.frame format_ok same
  root := space.root
  tables n deep t listed := blocks _ (space.tables n deep t listed)
  pages q listed := by
    obtain ⟨p, held, place⟩ := space.pages q listed
    exact ⟨p, pages p held, place⟩

theorem page_same (sound : Sound boot otherPages otherBlocks k.account)
    (space : Space k pgd level) {p : Nat} (held : p ∈ k.account.pages ++ otherPages)
    {memory : Words} (outside : ∀ a, a < pageSize * p ∨ pageSize * p + pageSize ≤ a →
      memory a = k.memory a) : SameTables format level k.memory memory := by
  intro n deep t listed i small
  apply outside
  have apart := (table_place sound.toInv
    (List.mem_append_left _ (space.tables n deep t listed))).2 p held
  unfold slot
  unfold tableBytes at apart
  omega

theorem mapping_page (space : Space k pgd level) {v q : Nat}
    (mapped : mapping k.memory pgd v = some q) :
    v < userEnd ∧ ∃ p ∈ k.account.pages, q = pageSize * p := by
  unfold mapping at mapped
  split at mapped
  · next user =>
    rw [space.pgd_base] at mapped
    exact ⟨user, space.pages q (@walk_listed _ _ _ format_ok space.tree (pathOf v) 0 _ _ (Nat.le_refl 3)
      (path_within user) space.pgd_listed mapped)⟩
  · cases mapped

theorem take_mm_spec {address : Nat} (sound : Sound boot otherPages otherBlocks k.account)
    (call : takeMm k = some (k', address)) :
    Sound boot otherPages otherBlocks k'.account ∧ k'.account.pages = k.account.pages ∧
      k'.account.blocks = (address, mmBytes) :: k.account.blocks ∧ k'.memory = k.memory ∧
      k'.initPgd = k.initPgd := by
  unfold takeMm at call
  split at call
  · next a place taken =>
    cases call
    obtain ⟨kept, pages, blocks⟩ := take_block_spec (no_rule _ _) sound taken
    exact ⟨kept, pages, blocks, rfl, rfl⟩
  · cases call

end

def rootOnly (pgd : Nat) (n : Nat) : List Nat := if n = 0 then [pgd] else []

theorem root_space {k : Kernel} {pgd : Nat} (sound : Sound boot otherPages otherBlocks k.account)
    (held : (physToVirt pgd, tableBytes) ∈ k.account.blocks)
    (empty : ∀ i < 256, k.memory (slot pgd i) = 0) : Space k pgd (rootOnly pgd) := by
  have only : ∀ n t, t ∈ rootOnly pgd n → n = 0 ∧ t = pgd := by
    intro n t member
    unfold rootOnly at member
    split at member
    · next zero => exact ⟨zero, List.mem_singleton.mp member⟩
    · cases member
  refine ⟨⟨?_, ?_, ?_⟩, rfl, ?_, ?_⟩
  · intro n _ t member
    rw [(only n t member).2]
    exact (table_place sound.toInv (List.mem_append_left _ held)).1
  · intro n _ k _ t first second
    rw [(only n t first).1, (only k t second).1]
  · intro n deep t member i within
    obtain ⟨rfl, rfl⟩ := only n t member
    exact Or.inl (empty i within)
  · intro n _ t member
    rw [(only n t member).2]
    exact held
  · intro q member
    exact absurd (only 3 q member).1 (by decide)

theorem exec_space_spec {k k' : Kernel} {t : Task} {mm : Mm}
    (sound : Sound boot otherPages otherBlocks k.account)
    (own : t.flags &&& pfVfork = 0 → ∃ level, Space k t.mm.pgd level)
    (call : execSpace k t = some (k', mm)) :
    Sound boot otherPages otherBlocks k'.account ∧ ∃ level, Space k' mm.pgd level := by
  unfold execSpace at call
  split at call
  · obtain ⟨⟨k₁, address⟩, first, call⟩ := Option.bind_eq_some_iff.mp call
    obtain ⟨⟨k₂, pgd⟩, second, call⟩ := Option.bind_eq_some_iff.mp call
    obtain ⟨sound₁, _⟩ := take_mm_spec sound first
    obtain ⟨sound₂, _, blocks, _⟩ := take_table_spec sound₁ second
    cases call
    have held : (physToVirt pgd, tableBytes) ∈ k₂.account.blocks := by
      rw [blocks]
      exact List.mem_cons_self
    refine ⟨sound₂, rootOnly pgd, @root_space _ _ _ _ pgd sound₂ held fun i small => ?_⟩
    unfold copyKernelSpace clearUserSpace copyWords clearWords slot
    dsimp only
    rw [if_neg (by omega), if_pos (by omega)]
  · next plain =>
    cases call
    exact ⟨sound, own (by simpa using plain)⟩

/-- do_execve leaves the process with tables of its own and an empty heap. -/
theorem do_execve_spec {k k' : Kernel} {t t' : Task} {image : Words}
    (sound : Sound boot otherPages otherBlocks k.account)
    (own : t.flags &&& pfVfork = 0 → ∃ level, Space k t.mm.pgd level)
    (call : doExecve k t image = some (k', t')) :
    Sound boot otherPages otherBlocks k'.account ∧ (∃ level, Space k' t'.mm.pgd level) ∧
      t'.mm.startBrk = brkStart ∧ t'.mm.endBrk = brkStart := by
  obtain ⟨⟨k₁, mm⟩, first, call⟩ := Option.bind_eq_some_iff.mp call
  obtain ⟨sound₁, level₁, space₁⟩ := exec_space_spec sound own first
  obtain ⟨⟨k₂, ok⟩, second, call⟩ := Option.bind_eq_some_iff.mp call
  obtain ⟨sound₂, level₂, space₂⟩ := map_page_spec sound₁ space₁ (by decide) second
  cases ok with
  | false => cases call
  | true =>
    obtain ⟨page, mapped, call⟩ := Option.bind_eq_some_iff.mp call
    cases call
    obtain ⟨_, p, held, rfl⟩ := mapping_page space₂ mapped
    refine ⟨sound₂, ⟨level₂, ?_⟩, rfl, rfl⟩
    apply space₂.frame
    · apply page_same sound₂ space₂ (List.mem_append_left _ held)
      intro a outside
      refine if_neg ?_
      omega
    · exact fun e member => member
    · exact fun q member => member

end AddressSpace
